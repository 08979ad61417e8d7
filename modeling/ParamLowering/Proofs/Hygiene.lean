import ParamLowering.Proofs.Mentions
import ParamLowering.Run
set_option autoImplicit false

/-!
Generated names are new in a whole run.

The history of a run has one part for each file: first every identifier of the file, then what
the edits of its functions take, in the order of the edits. No name is made up twice or after it
was taken.
-/

namespace ParamLowering

open ParamLowering.Tree

variable {σ : Type}

/-- What an edit takes, in order. -/
inductive Edit.Takes (cx : PassContext σ) : Edit → List NameEvent → Prop where
  | deletion (span : Span) : Takes cx (.delete span .removal) []
  | placeholder (span : Span) (name : String) :
    Takes cx (.replace span name .removal) [.generated name]
  /-- The statement of a pattern: the temporaries of its extraction, then its names. -/
  | pattern (anchor : Nat) {pattern : Pattern} {source : SourceExpr} {names : NameSet} {state : σ}
    {x : Extraction} {indent text : String}
    (answer : (cx.extractor.run pattern source names state).1 = .ok x)
    (statement : x.declaration indent cx.options.cleanup = .ok text) :
    Takes cx (.insertAt anchor text .prologue)
      (x.temporaries.map .generated ++ x.leafNames.map .registered)
  | defaulted (anchor index : Nat) (name value indent : String) :
    Takes cx (.insertAt anchor (guardedName name index value indent) .prologue)
      [.registered name]
  | rest (anchor count : Nat) (name indent : String) :
    Takes cx (.insertAt anchor s!"var {name} = [].slice.call(arguments, {count});{indent}"
      .prologue) [.registered name]

/-- What edits take, one after another. -/
def Edit.TakeAll (cx : PassContext σ) (edits : List Edit) (es : List NameEvent) : Prop :=
  ∃ parts, List.Forall₂ (Edit.Takes cx) edits parts ∧ es = parts.flatten

namespace Edit.TakeAll

variable {cx : PassContext σ} {xs ys : List Edit} {es fs : List NameEvent}

theorem nil : TakeAll cx [] [] := ⟨[], .nil, rfl⟩

theorem one {e : Edit} (h : Edit.Takes cx e es) : TakeAll cx [e] es :=
  ⟨[es], .cons h .nil, by simp⟩

theorem append (hx : TakeAll cx xs es) (hy : TakeAll cx ys fs) :
    TakeAll cx (xs ++ ys) (es ++ fs) := by
  obtain ⟨ps, hps, rfl⟩ := hx
  obtain ⟨qs, hqs, rfl⟩ := hy
  exact ⟨ps ++ qs, List.rel_append hps hqs, List.flatten_append.symm⟩

end Edit.TakeAll

namespace Lower

variable {α β : Type}

/-- A step adds events to the history of names, also if it fails. What it gives fits them. -/
def Tells (stem : String) (Q : List NameEvent → α → Prop) (m : Lower σ α) : Prop :=
  ∀ st, ∃ es, NameSet.History stem st.names es (m.run.run st).2.names ∧
    (∀ name, .mentioned name ∉ es) ∧ ∀ a, (m.run.run st).1 = .ok a → Q es a

variable {stem : String} {cx : PassContext σ} {s : Subject}

theorem tells_pure {Q : List NameEvent → α → Prop} {a : α} (h : Q [] a) :
    Tells stem Q (pure a : Lower σ α) := by
  refine fun st => ⟨[], .nil _, by simp, fun b hb => ?_⟩
  obtain rfl := Except.ok.inj hb
  exact h

theorem tells_bind {P : List NameEvent → α → Prop} {Q : List NameEvent → β → Prop} {m : Lower σ α}
    {f : α → Lower σ β} (hm : Tells stem P m)
    (hf : ∀ es a, P es a → Tells stem (fun fs b => Q (es ++ fs) b) (f a)) :
    Tells stem Q (m >>= f) := by
  intro st
  obtain ⟨es, hes, hmentioned, hP⟩ := hm st
  rw [run_bind]
  match hrun : m.run.run st with
  | (.error e, t) =>
    rw [hrun] at hes
    exact ⟨es, hes, hmentioned, fun b hb => by cases hb⟩
  | (.ok a, t) =>
    rw [hrun] at hes hP
    obtain ⟨fs, hfs, hmentioned', hQ⟩ := hf es a (hP a rfl) t
    refine ⟨es ++ fs, hes.append hfs, fun name hname => ?_, hQ⟩
    exact (List.mem_append.1 hname).elim (hmentioned name) (hmentioned' name)

theorem tells_get_bind {Q : List NameEvent → α → Prop} {f : PassState σ → Lower σ α}
    (hf : ∀ st, Tells stem Q (f st)) : Tells stem Q (get >>= f) := fun st => hf st st

theorem tells_throw {Q : List NameEvent → α → Prop} (e : LoweringError) :
    Tells stem Q (throw e : Lower σ α) := fun _ => ⟨[], .nil _, by simp, fun _ ha => by cases ha⟩

theorem tells_ofExcept {Q : List NameEvent → α → Prop} {x : Except LoweringError α}
    (h : ∀ a, x = .ok a → Q [] a) : Tells stem Q (MonadExcept.ofExcept x : Lower σ α) := by
  cases x with
  | ok a => exact tells_pure (h a rfl)
  | error e => exact tells_throw e

theorem ofExcept_run (x : Except LoweringError α) (st : PassState σ) :
    (MonadExcept.ofExcept x : Lower σ α).run.run st = (x, st) := by
  cases x <;> rfl

theorem warn_tells (line : Nat) (kind : WarningKind) :
    Tells stem (fun es _ => es = []) (warn (σ := σ) line kind) :=
  fun _ => ⟨[], .nil _, by simp, fun _ _ => rfl⟩

theorem register_tells (hoist : ScopeId) (origin : Span) (position : Position) (name : String) :
    Tells stem (fun es _ => es = [.registered name]) (register (σ := σ) hoist origin position name) :=
  fun _ => ⟨[.registered name], .registered (.nil _), by simp, fun _ _ => rfl⟩

theorem registerAll_tells (hoist : ScopeId) (origin : Span) (position : Position)
    (names : List String) : Tells stem (fun es _ => es = names.map .registered)
      (registerAll (σ := σ) hoist origin position names) := by
  induction names with
  | nil => exact tells_pure rfl
  | cons name names ih =>
    refine tells_bind (register_tells hoist origin position name) fun es _ hes => ?_
    subst hes
    exact fun st => (ih st).imp fun fs h => ⟨h.1, h.2.1, fun _ hu => by rw [h.2.2 _ hu]; rfl⟩

theorem extract_tells (h : cx.extractor.Records stem) (pattern : Pattern) (source : SourceExpr) :
    Tells stem (fun es x => es = x.temporaries.map .generated ∧ ∃ names state,
      (cx.extractor.run pattern source names state).1 = .ok x) (extract cx pattern source) := by
  intro st
  obtain ⟨drawn, hdrawn, htemporaries⟩ := h pattern source st.names st.extractor
  have hrun : (extract cx pattern source).run.run st =
      ((cx.extractor.run pattern source st.names st.extractor).1,
        { st with
          names := (cx.extractor.run pattern source st.names st.extractor).2.1
          extractor := (cx.extractor.run pattern source st.names st.extractor).2.2 }) :=
    ofExcept_run _ _
  rw [hrun]
  refine ⟨drawn.map .generated, hdrawn, by simp, fun x hx => ⟨?_, st.names, st.extractor, hx⟩⟩
  rw [htemporaries x hx]

theorem placeholder_tells (hoist : ScopeId) (origin : Span) (index : Nat) :
    Tells cx.options.stem (fun es name => es = [.generated name])
      (placeholder cx hoist origin index) := by
  refine fun st => ⟨[.generated (st.names.fresh cx.options.stem).1], .generated (.nil _),
    by simp, fun name hname => ?_⟩
  obtain rfl := Except.ok.inj hname
  rfl

/-- A replacement whose edits take the events, wherever its statement goes. -/
abbrev Takes (cx : PassContext σ) (es : List NameEvent) (r : Replacement) : Prop :=
  ∀ anchor, Edit.TakeAll cx (r.edits anchor) es

/-- A statement whose insertion takes the events, wherever it goes. -/
abbrev Announces (cx : PassContext σ) (es : List NameEvent) (statement : String) : Prop :=
  ∀ anchor, Edit.Takes cx (.insertAt anchor statement .prologue) es

abbrev TakeAll (cx : PassContext σ) (es : List NameEvent) (rs : List Replacement) : Prop :=
  ∀ anchor, Edit.TakeAll cx (rs.flatMap (·.edits anchor)) es

theorem TakeAll.cons {es fs : List NameEvent} {r : Replacement} {rs : List Replacement}
    (hr : Takes cx es r) (hrs : TakeAll cx fs rs) : TakeAll cx (es ++ fs) (r :: rs) :=
  fun anchor => (hr anchor).append (hrs anchor)

theorem statement_tells (x : Extraction) (indent : String) (cleanup : Bool) :
    Tells stem (fun es text => es = [] ∧ x.declaration indent cleanup = .ok text)
      (MonadExcept.ofExcept (x.declaration indent cleanup) : Lower σ String) :=
  tells_ofExcept fun _ htext => ⟨rfl, htext⟩

theorem destructuredRemoval_tells (index : Nat) (param : Param) :
    Tells cx.options.stem (fun es e => Edit.Takes cx e es)
      (destructuredRemoval cx s index param) := by
  rw [destructuredRemoval]
  split
  · refine tells_bind (placeholder_tells s.hoist param.span index) fun es name hes => tells_pure ?_
    subst hes
    exact .placeholder param.span name
  · exact tells_pure (.deletion _)

theorem restReplacement_tells :
    Tells cx.options.stem (TakeAll cx) (restReplacement (σ := σ) s) := by
  rw [restReplacement]
  split
  · exact tells_pure fun _ => .nil
  · rename_i rest _
    refine tells_bind (register_tells _ _ _ _) fun es _ hes => tells_pure fun anchor => ?_
    subst hes
    exact (Edit.TakeAll.one (.rest anchor s.layout.paramCount rest.name s.layout.indent)).append
      (.one (.deletion _))

section

variable (hrecords : cx.extractor.Records cx.options.stem)

include hrecords

theorem destructured_tells (index : Nat) (param : Param) :
    Tells cx.options.stem (Takes cx) (destructured cx s index param) := by
  refine tells_bind (extract_tells hrecords _ _) fun es x ⟨hes, names, state, hanswer⟩ => ?_
  refine tells_bind (statement_tells _ _ _) fun fs text ⟨hfs, htext⟩ => ?_
  refine tells_bind (registerAll_tells _ _ _ _) fun gs _ hgs => ?_
  refine tells_bind (destructuredRemoval_tells index param) fun ks removal hremoval => ?_
  refine tells_pure fun anchor => ?_
  subst hes hfs hgs
  have hprologue := Edit.TakeAll.one (Edit.Takes.pattern anchor hanswer htext)
  simpa [Replacement.edits] using hprologue.append (.one hremoval)

theorem destructuredFrom_tells (index : Nat) (ps : List Param) :
    Tells cx.options.stem (TakeAll cx) (destructuredFrom cx s index ps) := by
  induction ps generalizing index with
  | nil => exact tells_pure fun _ => .nil
  | cons p ps ih =>
    rw [destructuredFrom]
    split
    · refine tells_bind (destructured_tells hrecords index p) fun es r hr => ?_
      refine tells_bind (ih (index + 1)) fun fs rs hrs => tells_pure ?_
      simpa using TakeAll.cons hr hrs
    · exact ih (index + 1)

theorem defaultedPrologue_tells (index : Nat) (param : Param) (default : DefaultValue) :
    Tells cx.options.stem (fun es answer => Announces cx es answer.1)
      (defaultedPrologue cx s index param default) := by
  refine tells_bind (P := fun es _ => es = []) (tells_ofExcept fun _ _ => rfl) fun es text hes => ?_
  subst hes
  -- what both kinds of patterns have in common
  have hpattern : Tells cx.options.stem (fun es (answer : String × List String) =>
      Announces cx es answer.1) (do
        let x ← Lower.extract cx param.pattern (.defaultedArgument index text)
        registerAll s.hoist default.span (.index index) x.leafNames
        let prologue ← MonadExcept.ofExcept (x.declaration s.layout.indent cx.options.cleanup)
        return (prologue, x.leafNames)) := by
    refine tells_bind (extract_tells hrecords _ _) fun es x ⟨hes, names, state, hanswer⟩ => ?_
    refine tells_bind (registerAll_tells _ _ _ _) fun fs _ hfs => ?_
    refine tells_bind (statement_tells _ _ _) fun gs text ⟨hgs, htext⟩ => ?_
    refine tells_pure fun anchor => ?_
    subst hes hfs hgs
    simpa using Edit.Takes.pattern anchor hanswer htext
  obtain ⟨pattern, span⟩ := param
  cases pattern with
  | object => exact hpattern
  | array => exact hpattern
  | ident name nameSpan =>
    have hname : Tells cx.options.stem (fun es (answer : String × List String) =>
        Announces cx es answer.1) (do
          register (σ := σ) s.hoist default.span (.index index) name
          return (guardedName name index text s.layout.indent, [name])) := by
      refine tells_bind (register_tells _ _ _ _) fun es _ hes => tells_pure fun anchor => ?_
      subst hes
      exact .defaulted anchor index name text s.layout.indent
    by_cases hself : default.ident = some name
    · simp only [hself, ↓reduceIte]
      refine tells_bind (warn_tells _ _) fun es _ hes => ?_
      subst hes
      exact hname
    · simp only [hself, ↓reduceIte]
      exact hname

theorem defaultedFrom_tells (index : Nat) (previousDefault : Option Nat)
    (ds : List (Param × DefaultValue)) :
    Tells cx.options.stem (TakeAll cx) (defaultedFrom cx s index previousDefault ds) := by
  induction ds generalizing index previousDefault with
  | nil => exact tells_pure fun _ => .nil
  | cons d ds ih =>
    have hone : Tells cx.options.stem (Takes cx) (defaulted cx s index d.1 d.2 previousDefault) := by
      refine tells_bind (defaultedPrologue_tells hrecords index d.1 d.2) fun es answer hes => ?_
      refine tells_pure fun anchor => ?_
      exact (Edit.TakeAll.one (hes anchor)).append (.one (.deletion _))
    refine tells_bind hone fun es r hr => ?_
    refine tells_bind (ih (index + 1) (some d.2.span.stop)) fun fs rs hrs => tells_pure ?_
    simpa using TakeAll.cons hr hrs

theorem replacements_tells : Tells cx.options.stem (TakeAll cx) (replacements cx s) := by
  refine tells_bind (destructuredFrom_tells hrecords _ _) fun es first hfirst => ?_
  refine tells_bind (defaultedFrom_tells hrecords _ _ _) fun fs second hsecond => ?_
  refine tells_bind restReplacement_tells fun gs third hthird => ?_
  refine tells_pure fun anchor => ?_
  simpa using (hfirst anchor).append ((hsecond anchor).append (hthird anchor))

end

end Lower

/-- A pass over a function takes what its edits take. -/
theorem lowerFunction_tells {cx : PassContext σ} (h : cx.extractor.Records cx.options.stem)
    (f : FunctionNode) : Lower.Tells cx.options.stem
      (fun es outcome => Edit.TakeAll cx outcome.edits es) (lowerFunction cx f) := by
  refine Lower.tells_bind (P := fun es _ => es = []) (Lower.tells_ofExcept fun _ _ => rfl)
    fun es layout hes => ?_
  subst hes
  split
  · exact Lower.tells_pure .nil
  · refine Lower.tells_get_bind fun st => ?_
    cases st.scopes.scopeOf? f.id with
    | none => exact Lower.tells_throw _
    | some scope =>
      refine Lower.tells_bind (Lower.replacements_tells h) fun es rs hrs => Lower.tells_pure ?_
      simpa [Outcome.ofReplacements] using hrs layout.anchor

/-! ### Files and runs -/

namespace Run

theorem lowerEach_tells (options : LoweringOptions) (file : String) (source : List Char)
    (fs : List FunctionNode) (st : PassState Unit) : ∃ es,
      NameSet.History options.stem st.names es
        (lowerEach (passContext options source) file fs st).2.names ∧
      (∀ name, .mentioned name ∉ es) ∧
      ∀ outcomes, (lowerEach (passContext options source) file fs st).1 = .ok outcomes →
        Edit.TakeAll (passContext options source) (outcomes.flatMap (·.edits)) es := by
  induction fs generalizing st with
  | nil =>
    refine ⟨[], .nil _, by simp, fun outcomes houtcomes => ?_⟩
    obtain rfl := Except.ok.inj houtcomes
    exact .nil
  | cons f fs ih =>
    have hrecords : (passContext options source).extractor.Records options.stem :=
      ExtractionContext.extractor_records ⟨source, options.stem⟩
    obtain ⟨es, hes, hmentioned, htakes⟩ := lowerFunction_tells hrecords f st
    rw [lowerEach]
    match hf : (lowerFunction (passContext options source) f).run.run st with
    | (.error e, t) =>
      rw [hf] at hes
      exact ⟨es, hes, hmentioned, fun outcomes houtcomes => by cases houtcomes⟩
    | (.ok outcome, t) =>
      rw [hf] at hes htakes
      obtain ⟨gs, hgs, hmentioned', htakes'⟩ := ih t
      have hnone : ∀ name, .mentioned name ∉ es ++ gs := fun name hname =>
        (List.mem_append.1 hname).elim (hmentioned name) (hmentioned' name)
      dsimp only
      match hrest : lowerEach (passContext options source) file fs t with
      | (.error e, u) =>
        rw [hrest] at hgs
        exact ⟨es ++ gs, hes.append hgs, hnone, fun outcomes houtcomes => by cases houtcomes⟩
      | (.ok outcomes, u) =>
        rw [hrest] at hgs htakes'
        refine ⟨es ++ gs, hes.append hgs, hnone, fun all hall => ?_⟩
        obtain rfl := Except.ok.inj hall
        exact (htakes outcome rfl).append (htakes' outcomes rfl)

/-- The history of one file: nothing if the file cannot be read, else all its identifiers, then
what is taken for its functions. If the file is lowered, that is what its edits take. -/
def FileHistory (options : LoweringOptions) (file : String × List Char)
    (answer : Except FileError LoweredFile) (es : List NameEvent) : Prop :=
  match SourceFile.statements? file.1 file.2 with
  | none => es = []
  | some statements => ∃ taken,
    es = (Node.identifiersAll statements).map (fun id => .mentioned id.name) ++ taken ∧
      (∀ name, .mentioned name ∉ taken) ∧
      ∀ lowered, answer = .ok lowered →
        Edit.TakeAll (passContext options file.2) lowered.edits taken

/-- No name made up for a file is a name in its text. -/
def NewInFile (file : String × List Char) (es : List NameEvent) : Prop :=
  ∀ statements, SourceFile.statements? file.1 file.2 = some statements →
    ∀ id ∈ Node.identifiersAll statements, .generated id.name ∉ es

theorem FileHistory.newInFile {options : LoweringOptions} {stem : String} {s t : NameSet} {file : String × List Char}
    {answer : Except FileError LoweredFile} {es : List NameEvent}
    (hfile : FileHistory options file answer es) (h : NameSet.History stem s es t) :
    NewInFile file es := by
  intro statements hread id hid hgenerated
  simp only [FileHistory, hread] at hfile
  obtain ⟨taken, rfl, -, -⟩ := hfile
  have hmentioned : .mentioned id.name ∈ (Node.identifiersAll statements).map
      fun id => NameEvent.mentioned id.name := List.mem_map_of_mem hid
  rcases List.mem_append.1 hgenerated with hmem | hmem
  · simp at hmem
  · obtain ⟨before, behind, rfl⟩ := List.append_of_mem hmem
    rw [← List.append_assoc] at h
    exact h.generated_new.2 _ (List.mem_append_left before hmentioned) rfl

theorem finish_edits {file : String} {source : List Char} {outcomes : List Outcome}
    {warnings : List Warning} {lowered : LoweredFile}
    (h : finish file source outcomes warnings = .ok lowered) :
    lowered.edits = outcomes.flatMap (·.edits) := by
  simp only [finish] at h
  split at h
  · cases h
  · obtain rfl := Except.ok.inj h
    rfl

theorem lowerFile_history (run : Run) (file : String) (source : List Char) : ∃ es,
    NameSet.History run.options.stem run.names es (run.lowerFile file source).2.names ∧
      FileHistory run.options (file, source) (run.lowerFile file source).1 es := by
  simp only [lowerFile, FileHistory, discover]
  cases SourceFile.statements? file source with
  | none => exact ⟨[], .nil _, rfl⟩
  | some statements =>
    simp only [Option.map_some]
    generalize hd : Discovery.ofStatements run.nextFile _ statements run.names = d
    have hmentions := NameSet.addAll_history run.options.stem run.names
      (Node.identifiersAll statements)
    rw [← Discovery.names_ofStatements, hd] at hmentions
    obtain ⟨taken, htaken, hnone, hedits⟩ :=
      lowerEach_tells run.options file source d.functions (passState d)
    have hall := hmentions.append htaken
    match hrun : lowerEach (passContext run.options source) file d.functions (passState d) with
    | (.error e, st) =>
      rw [hrun] at hall
      exact ⟨_, hall, taken, rfl, hnone, fun lowered hlowered => by cases hlowered⟩
    | (.ok outcomes, st) =>
      rw [hrun] at hall hedits
      refine ⟨_, hall, taken, rfl, hnone, fun lowered hlowered => ?_⟩
      rw [finish_edits hlowered]
      exact hedits outcomes rfl

theorem lowerFile_options (run : Run) (file : String) (source : List Char) :
    (run.lowerFile file source).2.options = run.options := by
  rw [lowerFile]
  split
  · rfl
  · split <;> rfl

/-- The run behind some files. -/
def after (run : Run) : List (String × List Char) → Run
  | [] => run
  | (file, source) :: files => (run.lowerFile file source).2.after files

theorem lowerFiles_history (run : Run) (files : List (String × List Char)) : ∃ histories,
    NameSet.History run.options.stem run.names histories.flatten (run.after files).names ∧
      List.Forall₂ (fun f es => FileHistory run.options f.1 f.2 es)
        (files.zip (run.lowerFiles files)) histories ∧
      List.Forall₂ NewInFile files histories := by
  induction files generalizing run with
  | nil => exact ⟨[], .nil _, .nil, .nil⟩
  | cons f files ih =>
    obtain ⟨file, source⟩ := f
    obtain ⟨es, hes, hfile⟩ := run.lowerFile_history file source
    obtain ⟨histories, hmore, hfiles, hnew⟩ := ih (run.lowerFile file source).2
    rw [lowerFile_options] at hmore hfiles
    exact ⟨es :: histories, hes.append hmore, .cons hfile hfiles, .cons (hfile.newInFile hes) hnew⟩

/-- Names made up in a run are new: not a name in their own file, not taken before the run, in no
identifier of an earlier file, not declared for the user before, and not made up before. -/
theorem lowerFiles_generated_new (run : Run) (files : List (String × List Char)) : ∃ histories,
    NameSet.History run.options.stem run.names histories.flatten (run.after files).names ∧
      List.Forall₂ (fun f es => FileHistory run.options f.1 f.2 es)
        (files.zip (run.lowerFiles files)) histories ∧
      List.Forall₂ NewInFile files histories ∧
      ∀ before name behind, histories.flatten = before ++ .generated name :: behind →
        name ∉ run.names.taken ∧ ∀ e ∈ before, e.name ≠ name := by
  obtain ⟨histories, hhistory, hfiles, hnew⟩ := run.lowerFiles_history files
  refine ⟨histories, hhistory, hfiles, hnew, fun before name behind heq => ?_⟩
  exact (heq ▸ hhistory).generated_new

end Run

end ParamLowering
