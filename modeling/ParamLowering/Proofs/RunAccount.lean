import ParamLowering.Proofs.FileNumber
import ParamLowering.Proofs.Resolution
import ParamLowering.Proofs.SourceWalk
set_option autoImplicit false

/-!
What a run says of the files of a project.

Every file that is admitted is in one of two lists, the files that were lowered and the files that
failed. A file that is not admitted or not read as a program leaves no trace in what is said of the
other files: it takes no names, and the number that it takes does not matter.
-/

namespace ParamLowering

open FileEntry

/-! ### One file -/

namespace Run

theorem file_of_finish {file : String} {source : List Char} {outcomes : List Outcome}
    {warnings : List Warning} {lowered : LoweredFile}
    (h : finish file source outcomes warnings = .ok lowered) : lowered.file = file := by
  rw [finish] at h
  split at h
  · cases h
  · cases h
    rfl

theorem file_of_lowerFile {run : Run} {file : String} {source : List Char} {lowered : LoweredFile}
    (h : (run.lowerFile file source).1 = .ok lowered) : lowered.file = file := by
  rw [lowerFile] at h
  split at h
  · cases h
  · split at h
    · cases h
    · exact file_of_finish h

end Run

namespace Project

variable {fs fs' : FileSystem} {strict : Bool} {n : Nat}

/-- A file is lowered, without warnings if these count as errors, or fails under its own path. -/
theorem lowerFound_cases (fs : FileSystem) (strict : Bool) (run : Run) (f : FoundFile) :
    (∃ lowered, (lowerFound fs strict run f).1 = .ok lowered ∧ lowered.file = f.path ∧
      (strict = true → lowered.warnings = [])) ∨
    ∃ cause, (lowerFound fs strict run f).1 = .error ⟨f.path, cause⟩ := by
  rw [lowerFound]
  split
  case h_1 => exact .inr ⟨_, rfl⟩
  case h_2 text _ =>
    dsimp only
    cases hanswer : (run.lowerFile f.path text).1 with
    | error e => exact .inr ⟨_, rfl⟩
    | ok lowered =>
      rw [outcome]
      split
      case isTrue => exact .inr ⟨_, rfl⟩
      case isFalse hquiet =>
        refine .inl ⟨lowered, rfl, Run.file_of_lowerFile hanswer, fun hstrict => ?_⟩
        simpa [hstrict] using hquiet

theorem lowerFound_raise (run : Run) (f : FoundFile) :
    lowerFound fs strict (run.raise n) f =
      Prod.map id (·.raise n) (lowerFound fs strict run f) := by
  simp only [lowerFound, Run.lowerFile_raise]
  split <;> rfl

theorem lowerFound_congr {f : FoundFile} (h : fs.read? f.path = fs'.read? f.path) (run : Run) :
    lowerFound fs strict run f = lowerFound fs' strict run f := by
  rw [lowerFound, lowerFound, h]

/-- The names of a file are not taken: it cannot be read, or its text is no program. -/
def IsMute (fs : FileSystem) (f : FoundFile) : Prop :=
  ∀ text, fs.read? f.path = some text → SourceFile.statements? f.path text = none

/-- A mute file fails, and nothing changes in the run but the number of the next file. -/
theorem lowerFound_mute {f : FoundFile} (h : IsMute fs f) (strict : Bool) (run : Run) :
    ∃ cause n, lowerFound fs strict run f = (.error ⟨f.path, cause⟩, run.raise n) := by
  rw [lowerFound]
  split
  case h_1 =>
    exact ⟨.unreadable, 0, by rw [Run.raise, Nat.zero_add]⟩
  case h_2 text htext =>
    refine ⟨.file (.unreadableSyntax f.path), 1, ?_⟩
    rw [Run.lowerFile, Run.discover, h text htext, Run.raise, Nat.add_comm]
    rfl

/-! ### All files -/

section

variable {run : Run} {f : FoundFile} {files : List FoundFile}

theorem lowerAll_cons_ok {lowered : LoweredFile}
    (h : (lowerFound fs strict run f).1 = .ok lowered) :
    lowerAll fs strict run (f :: files) =
      ⟨(f, lowered) :: (lowerAll fs strict (lowerFound fs strict run f).2 files).lowered,
        (lowerAll fs strict (lowerFound fs strict run f).2 files).failed⟩ := by
  rw [lowerAll]
  dsimp only
  rw [h]

theorem lowerAll_cons_error {failure : Failure}
    (h : (lowerFound fs strict run f).1 = .error failure) :
    lowerAll fs strict run (f :: files) =
      ⟨(lowerAll fs strict (lowerFound fs strict run f).2 files).lowered,
        failure :: (lowerAll fs strict (lowerFound fs strict run f).2 files).failed⟩ := by
  rw [lowerAll]
  dsimp only
  rw [h]

end

/-- The files are shared out, in their order, between those that were lowered and those that
failed. -/
theorem lowerAll_shares (fs : FileSystem) (strict : Bool) {files : List FoundFile}
    (h : files.Nodup) (run : Run) : ∃ lowers : FoundFile → Bool,
      (lowerAll fs strict run files).lowered.map (·.1) = files.filter lowers ∧
      (lowerAll fs strict run files).failed.map (·.path) =
        (files.filter (!lowers ·)).map (·.path) := by
  induction files generalizing run with
  | nil => exact ⟨fun _ => true, rfl, rfl⟩
  | cons f files ih =>
    obtain ⟨hf, hfiles⟩ := List.nodup_cons.1 h
    obtain ⟨lowers, hlowered, hfailed⟩ := ih hfiles (lowerFound fs strict run f).2
    -- the answer for this file is put before those for the other files
    have hothers : ∀ answer, ∀ g ∈ files, (if g = f then answer else lowers g) = lowers g := by
      intro answer g hg
      refine if_neg ?_
      rintro rfl
      exact hf hg
    rcases lowerFound_cases fs strict run f with ⟨lowered, hok, -, -⟩ | ⟨cause, herror⟩
    · refine ⟨fun g => if g = f then true else lowers g, ?_, ?_⟩
      · rw [lowerAll_cons_ok hok, List.map_cons, hlowered, List.filter_cons_of_pos (by simp),
          List.filter_congr (hothers true)]
      · rw [lowerAll_cons_ok hok, hfailed, List.filter_cons_of_neg (by simp),
          List.filter_congr fun g hg => congrArg _ (hothers true g hg)]
    · refine ⟨fun g => if g = f then false else lowers g, ?_, ?_⟩
      · rw [lowerAll_cons_error herror, hlowered, List.filter_cons_of_neg (by simp),
          List.filter_congr (hothers false)]
      · rw [lowerAll_cons_error herror, List.map_cons, hfailed, List.filter_cons_of_pos (by simp),
          List.map_cons, List.filter_congr fun g hg => congrArg _ (hothers false g hg)]

/-- The paths of the files, and no others, are spoken of. -/
theorem mem_paths_lowerAll (fs : FileSystem) (strict : Bool) (run : Run)
    (files : List FoundFile) (path : String) :
    path ∈ (lowerAll fs strict run files).lowered.map (·.1.path) ∨
      path ∈ (lowerAll fs strict run files).failed.map (·.path) ↔ path ∈ files.map (·.path) := by
  induction files generalizing run with
  | nil => simp [lowerAll]
  | cons f files ih =>
    rcases lowerFound_cases fs strict run f with ⟨lowered, hok, -, -⟩ | ⟨cause, herror⟩
    · rw [lowerAll_cons_ok hok, List.map_cons, List.map_cons, List.mem_cons, List.mem_cons,
        ← ih (lowerFound fs strict run f).2, or_assoc]
    · rw [lowerAll_cons_error herror, List.map_cons, List.map_cons, List.mem_cons, List.mem_cons,
        ← ih (lowerFound fs strict run f).2, or_left_comm]

theorem lowerAll_lowered {run : Run} {files : List FoundFile} {e : FoundFile × LoweredFile}
    (h : e ∈ (lowerAll fs strict run files).lowered) :
    e.2.file = e.1.path ∧ (strict = true → e.2.warnings = []) := by
  induction files generalizing run with
  | nil => cases h
  | cons f files ih =>
    rcases lowerFound_cases fs strict run f with ⟨lowered, hok, hfile⟩ | ⟨cause, herror⟩
    · rw [lowerAll_cons_ok hok] at h
      rcases List.mem_cons.1 h with rfl | h
      · exact hfile
      · exact ih h
    · rw [lowerAll_cons_error herror] at h
      exact ih h

theorem lowerAll_raise (run : Run) (files : List FoundFile) :
    lowerAll fs strict (run.raise n) files = lowerAll fs strict run files := by
  induction files generalizing run with
  | nil => rfl
  | cons f files ih =>
    rw [lowerAll, lowerAll, lowerFound_raise]
    simp only [Prod.map, id_eq, ih]

theorem lowerAll_congr {files : List FoundFile}
    (h : ∀ f ∈ files, fs.read? f.path = fs'.read? f.path) (run : Run) :
    lowerAll fs strict run files = lowerAll fs' strict run files := by
  induction files generalizing run with
  | nil => rfl
  | cons f files ih =>
    obtain ⟨hf, hfiles⟩ := List.forall_mem_cons.1 h
    rw [lowerAll, lowerAll, lowerFound_congr hf]
    simp only [ih hfiles]

/-- A summary without what it says of one path. -/
def Summary.without (path : String) (s : Summary) : Summary where
  lowered := s.lowered.filter (·.1.path ≠ path)
  failed := s.failed.filter (·.path ≠ path)

/-- A mute file leaves no trace in what is said of other paths. -/
theorem lowerAll_without {path : String} {files : List FoundFile}
    (h : ∀ f ∈ files, f.path = path → IsMute fs f) (run : Run) :
    (lowerAll fs strict run files).without path =
      lowerAll fs strict run (files.filter (·.path ≠ path)) := by
  induction files generalizing run with
  | nil => rfl
  | cons f files ih =>
    obtain ⟨hf, hfiles⟩ := List.forall_mem_cons.1 h
    have hrest := ih hfiles (lowerFound fs strict run f).2
    by_cases hpath : f.path = path
    · obtain ⟨cause, n, hmute⟩ := lowerFound_mute (hf hpath) strict run
      have hrun : (lowerFound fs strict run f).2 = run.raise n := congrArg Prod.snd hmute
      rw [hrun, lowerAll_raise, lowerAll_raise] at hrest
      rw [lowerAll_cons_error (congrArg Prod.fst hmute), hrun, lowerAll_raise,
        List.filter_cons_of_neg (by simp [hpath]), ← hrest]
      simp [Summary.without, hpath]
    · rw [List.filter_cons_of_pos (by simp [hpath])]
      rcases lowerFound_cases fs strict run f with ⟨lowered, hok, -, -⟩ | ⟨cause, herror⟩
      · rw [lowerAll_cons_ok hok, lowerAll_cons_ok hok, ← hrest]
        simp [Summary.without, hpath]
      · rw [lowerAll_cons_error herror, lowerAll_cons_error herror, ← hrest]
        simp [Summary.without, hpath]

theorem lower?_of_collect? (settings : Settings) {target : String} {files : List FoundFile}
    (h : collect? fs target = some files) : lower? fs settings target =
      some (lowerAll fs settings.warningsAsErrors { options := settings.options }
        (files.filter fun f => settings.admits f.globbed)) := by
  rw [lower?, h]
  rfl

/-! ### Trees -/

section

variable {settings : Settings} {dir : String} {entries entries' : List (String × FileEntry)}
  {names place as bs : List String} {text : Option (List Char)}

theorem read?_source (hdir : fs.find? dir = some (.directory entries)) (htidy : AllTidy entries)
    (h : IsSource entries names text) :
    fs.read? (FoundFile.inDirectory dir names).path = text := by
  rw [FileSystem.read?, FoundFile.inDirectory,
    FileSystem.find?_join hdir h.ne_nil (h.isName htidy) h.file (by simp)]

theorem eq_of_path_eq (has : as ≠ []) (hbs : bs ≠ []) (ha : ∀ n ∈ as, Path.IsName n)
    (hb : ∀ n ∈ bs, Path.IsName n)
    (h : (FoundFile.inDirectory dir as).path = (FoundFile.inDirectory dir bs).path) : as = bs := by
  have hcomponents := congrArg Path.components h
  rw [FoundFile.inDirectory, FoundFile.inDirectory, Path.components_join dir has ha,
    Path.components_join dir hbs hb, List.append_cancel_left_eq] at hcomponents
  exact List.map_injective_iff.2 (fun _ _ h => PathComponent.name.inj h) hcomponents

theorem nodup_paths (htidy : AllTidy entries) :
    (((sortedSources entries).map (FoundFile.inDirectory dir)).map (·.path)).Nodup := by
  rw [List.map_map, List.nodup_map_iff_inj_on]
  · intro as has bs hbs heq
    obtain ⟨_, ha⟩ := (mem_sortedSources htidy).1 has
    obtain ⟨_, hb⟩ := (mem_sortedSources htidy).1 hbs
    exact eq_of_path_eq ha.ne_nil hb.ne_nil (ha.isName htidy) (hb.isName htidy) heq
  · exact (Sorting.sort_perm _ _).nodup_iff.2 (nodup_sourcesBelow htidy)

/-- What stands at a place below a directory takes no part in a run: if it is a source file at all,
it is not admitted, it cannot be read, or its text is no program. -/
def IsIdleAt (settings : Settings) (dir : String) (entries : List (String × FileEntry))
    (place : List String) : Prop :=
  ∀ text, IsSource entries place text → settings.admits (Path.joined place) = false ∨
    ∀ cs, text = some cs → SourceFile.statements? (Path.join dir (Path.joined place)) cs = none

/-- The files below a directory that a run works on, in order. -/
def admitted (settings : Settings) (dir : String) (entries : List (String × FileEntry)) :
    List FoundFile :=
  ((sortedSources entries).map (FoundFile.inDirectory dir)).filter
    fun f => settings.admits f.globbed

theorem of_mem_admitted (htidy : AllTidy entries) {f : FoundFile}
    (hf : f ∈ admitted settings dir entries) : ∃ names text, f = FoundFile.inDirectory dir names ∧
      IsSource entries names text ∧ settings.admits (Path.joined names) = true := by
  obtain ⟨hmem, hadmits⟩ := List.mem_filter.1 hf
  obtain ⟨names, hnames, rfl⟩ := List.mem_map.1 hmem
  obtain ⟨text, hsource⟩ := (mem_sortedSources htidy).1 hnames
  exact ⟨names, text, rfl, hsource, hadmits⟩

/-- A place where nothing takes part in a run may be left out of it. -/
theorem lower?_without (hdir : fs.find? dir = some (.directory entries)) (htidy : AllTidy entries)
    (hne : place ≠ []) (hplace : ∀ n ∈ place, Path.IsName n)
    (hidle : IsIdleAt settings dir entries place) :
    (lower? fs settings dir).map (·.without (FoundFile.inDirectory dir place).path) =
      some (lowerAll fs settings.warningsAsErrors { options := settings.options }
        ((admitted settings dir entries).filter
          (·.path ≠ (FoundFile.inDirectory dir place).path))) := by
  rw [lower?_of_collect? settings (collect?_directory hdir htidy)]
  refine congrArg some (lowerAll_without (fun f hf hpath => ?_) _)
  obtain ⟨names, text, rfl, hsource, hadmits⟩ := of_mem_admitted htidy hf
  obtain rfl := eq_of_path_eq hsource.ne_nil hne (hsource.isName htidy) hplace hpath
  rcases hidle text hsource with hexcluded | hmute
  · exact absurd (hadmits.symm.trans hexcluded) Bool.noConfusion
  · exact fun cs hread => hmute cs ((read?_source hdir htidy hsource).symm.trans hread)

/-- Two directories hold the same source files, except at one place. -/
def AgreeBeside (place : List String) (entries entries' : List (String × FileEntry)) : Prop :=
  ∀ names text, names ≠ place → (IsSource entries names text ↔ IsSource entries' names text)

/-- A directory may get one more file. -/
theorem agreeBeside_cons_file {name : String} (h : ∀ other ∈ entries, other.1 ≠ name) :
    AgreeBeside [name] ((name, .file text) :: entries) entries := by
  intro names t hne
  cases names with
  | nil => exact iff_of_false (fun h => h.ne_nil rfl) fun h => h.ne_nil rfl
  | cons n ns =>
    by_cases hn : n = name
    · subst hn
      refine iff_of_false (fun hsource => ?_) fun hsource => ?_
      · exact hne (congrArg _ (isSource_cons_file.1 hsource).1)
      · have hfile := hsource.file
        rw [at?, child?] at hfile
        obtain ⟨e, he, -⟩ := Option.bind_eq_some_iff.1 hfile
        exact h _ (mem_of_lookup he) rfl
    · exact isSource_cons_of_ne hn

theorem sortedSources_beside (htidy : AllTidy entries) (htidy' : AllTidy entries')
    (hagree : AgreeBeside place entries entries') {keep : List String → Bool}
    (hkeep : ∀ names, keep names = true → names ≠ place) :
    (sortedSources entries).filter keep = (sortedSources entries').filter keep := by
  refine eq_of_increasing ((sortedSources_increasing htidy).filter _)
    ((sortedSources_increasing htidy').filter _) fun names => ?_
  rw [List.mem_filter, List.mem_filter, mem_sortedSources htidy, mem_sortedSources htidy']
  refine and_congr_left fun h => exists_congr fun text => hagree names text (hkeep names h)

theorem admitted_beside (htidy : AllTidy entries) (htidy' : AllTidy entries')
    (hagree : AgreeBeside place entries entries') :
    (admitted settings dir entries).filter (·.path ≠ (FoundFile.inDirectory dir place).path) =
      (admitted settings dir entries').filter
        (·.path ≠ (FoundFile.inDirectory dir place).path) := by
  have hfirst : ∀ entries, (admitted settings dir entries).filter
        (·.path ≠ (FoundFile.inDirectory dir place).path) =
      (((sortedSources entries).filter fun names => (FoundFile.inDirectory dir names).path ≠
        (FoundFile.inDirectory dir place).path).map (FoundFile.inDirectory dir)).filter
          fun f => settings.admits f.globbed := by
    intro entries
    rw [admitted, List.filter_comm, List.filter_map]
    rfl
  rw [hfirst, hfirst, sortedSources_beside htidy htidy' hagree]
  intro names hnames heq
  simp [heq] at hnames

/-- What takes no part in a run can be changed without a trace in what is said of other files. -/
theorem lower?_beside (hdir : fs.find? dir = some (.directory entries))
    (hdir' : fs'.find? dir = some (.directory entries')) (htidy : AllTidy entries)
    (htidy' : AllTidy entries') (hne : place ≠ []) (hplace : ∀ n ∈ place, Path.IsName n)
    (hagree : AgreeBeside place entries entries') (hidle : IsIdleAt settings dir entries place)
    (hidle' : IsIdleAt settings dir entries' place) :
    (lower? fs settings dir).map (·.without (FoundFile.inDirectory dir place).path) =
      (lower? fs' settings dir).map (·.without (FoundFile.inDirectory dir place).path) := by
  rw [lower?_without hdir htidy hne hplace hidle, lower?_without hdir' htidy' hne hplace hidle',
    admitted_beside htidy htidy' hagree]
  refine congrArg some (lowerAll_congr (fun f hf => ?_) _)
  obtain ⟨hmem, hpath⟩ := List.mem_filter.1 hf
  obtain ⟨names, text, rfl, hsource', -⟩ := of_mem_admitted htidy' hmem
  have hother : names ≠ place := by
    rintro rfl
    simp at hpath
  have hsource := (hagree names text hother).2 hsource'
  rw [read?_source hdir htidy hsource, read?_source hdir' htidy' hsource']

end

/-! ### The account -/

theorem collect?_nodup {target : String} {files : List FoundFile}
    (hfiles : collect? fs target = some files)
    (htidy : ∀ entries, fs.find? target = some (.directory entries) → AllTidy entries) :
    (files.map (·.path)).Nodup := by
  cases hfind : fs.find? target with
  | none =>
    rw [collect?, hfind] at hfiles
    cases hfiles
  | some e =>
    cases e with
    | link text =>
      rw [collect?, hfind] at hfiles
      cases hfiles
    | directory entries =>
      have hentries := htidy entries hfind
      rw [collect?_directory hfind hentries] at hfiles
      obtain rfl := Option.some.inj hfiles
      exact nodup_paths hentries
    | file text =>
      rw [collect?, hfind] at hfiles
      dsimp only at hfiles
      split at hfiles
      · obtain rfl := Option.some.inj hfiles
        split
        · exact List.nodup_singleton _
        · exact List.nodup_nil
      · obtain rfl := Option.some.inj hfiles
        exact List.nodup_nil

/-- A run gives a summary of all files that it collects. Those that the settings admit are shared
out in order, each under a path of its own, between the files lowered and the files that failed, and
there are no others. Where warnings count as errors, no file lowered has any. In a tidy tree the
rest of the summary is the same whatever stands at a place that takes no part in the run. -/
theorem lower_accounts_for_files {fs : FileSystem} {target : String} {files : List FoundFile}
    (settings : Settings) (hfiles : collect? fs target = some files)
    (htidy : ∀ entries, fs.find? target = some (.directory entries) → AllTidy entries) :
    ∃ summary, lower? fs settings target = some summary ∧ (files.map (·.path)).Nodup ∧
      (∃ lowers : FoundFile → Bool,
        summary.lowered.map (·.1) =
          files.filter (fun f => settings.admits f.globbed && lowers f) ∧
        summary.failed.map (·.path) =
          (files.filter fun f => settings.admits f.globbed && !lowers f).map (·.path)) ∧
      (∀ e ∈ summary.lowered, e.2.file = e.1.path ∧
        (settings.warningsAsErrors = true → e.2.warnings = [])) ∧
      ∀ (fs' : FileSystem) (entries entries' : List (String × FileEntry)) (place : List String),
        fs.find? target = some (.directory entries) →
        fs'.find? target = some (.directory entries') → AllTidy entries' →
        place ≠ [] → (∀ n ∈ place, Path.IsName n) → AgreeBeside place entries entries' →
        IsIdleAt settings target entries place → IsIdleAt settings target entries' place →
        (lower? fs' settings target).map (·.without (FoundFile.inDirectory target place).path) =
          some (summary.without (FoundFile.inDirectory target place).path) := by
  have hnodup := collect?_nodup hfiles htidy
  have hlower := lower?_of_collect? settings hfiles
  refine ⟨_, hlower, hnodup, ?_, fun e he => lowerAll_lowered he, ?_⟩
  · obtain ⟨lowers, hlowered, hfailed⟩ := lowerAll_shares fs settings.warningsAsErrors
      ((hnodup.of_map _).filter fun f => settings.admits f.globbed) { options := settings.options }
    refine ⟨lowers, ?_, ?_⟩
    · rw [hlowered, List.filter_filter]
      exact List.filter_congr fun f _ => Bool.and_comm _ _
    · rw [hfailed, List.filter_filter]
      exact congrArg _ (List.filter_congr fun f _ => Bool.and_comm _ _)
  · intro fs' entries entries' place hdir hdir' htidy' hne hplace hagree hidle hidle'
    rw [← lower?_beside hdir hdir' (htidy entries hdir) htidy' hne hplace hagree hidle hidle',
      hlower]
    rfl

/-- One file that is lowered. -/
def plainEntries : List (String × FileEntry) :=
  [("b.js", .file (some "function f(a = 1) \x7b\x7d".toList))]

/-- A file besides that is no program. -/
def brokenEntries : List (String × FileEntry) :=
  ("a.js", .file (some "function (".toList)) :: plainEntries

def strictSettings : Settings := ⟨none, [], {}, true⟩

def sampleFiles : List FoundFile := [["a.js"], ["b.js"]].map (FoundFile.inDirectory "/p")

theorem brokenEntries_tidy : AllTidy brokenEntries := by
  simp only [brokenEntries, plainEntries, AllTidy, Tidy]
  decide

theorem idle_broken : IsIdleAt strictSettings "/p" brokenEntries ["a.js"] := by
  intro text h
  refine .inr fun cs hcs => ?_
  have hfile : (FileEntry.directory brokenEntries).at? ["a.js"] =
    some (.file (some "function (".toList)) := rfl
  cases hfile.symm.trans h.file
  cases hcs
  decide +kernel

theorem idle_plain : IsIdleAt strictSettings "/p" plainEntries ["a.js"] := by
  intro text h
  have hnone : (FileEntry.directory plainEntries).at? ["a.js"] = none := rfl
  cases hnone.symm.trans h.file

theorem lower_accounts_for_files_broken : ∃ summary,
    lower? (sampleDisk brokenEntries) strictSettings "/p" = some summary ∧
    (∃ lowers : FoundFile → Bool, summary.lowered.map (·.1) = sampleFiles.filter lowers ∧
      summary.failed.map (·.path) = (sampleFiles.filter (!lowers ·)).map (·.path)) ∧
    (∀ e ∈ summary.lowered, e.2.warnings = []) ∧
    (lower? (sampleDisk plainEntries) strictSettings "/p").map (·.without "/p/a.js") =
      some (summary.without "/p/a.js") := by
  have htidy := brokenEntries_tidy
  have hdir : (sampleDisk brokenEntries).find? "/p" = some (.directory brokenEntries) := rfl
  have hsources : sortedSources brokenEntries = [["a.js"], ["b.js"]] := by
    simp only [sortedSources, brokenEntries, plainEntries, sourcesBelow]
    decide +kernel
  have hfiles : collect? (sampleDisk brokenEntries) "/p" = some sampleFiles := by
    rw [collect?_directory hdir htidy, hsources]
    rfl
  obtain ⟨summary, hlower, -, ⟨lowers, hlowered, hfailed⟩, hquiet, hbeside⟩ :=
    lower_accounts_for_files strictSettings hfiles fun entries h => by
      cases hdir.symm.trans h
      exact htidy
  exact ⟨summary, hlower, ⟨lowers, hlowered, hfailed⟩, fun e he => (hquiet e he).2 rfl,
    hbeside (sampleDisk plainEntries) brokenEntries plainEntries ["a.js"] hdir rfl
      htidy.2.2.2 (by decide) (by decide) (agreeBeside_cons_file htidy.2.1) idle_broken idle_plain⟩

end Project

end ParamLowering
