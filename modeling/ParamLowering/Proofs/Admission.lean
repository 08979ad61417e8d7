import ParamLowering.Proofs.GlobMatching
import ParamLowering.Proofs.RunAccount
set_option autoImplicit false

/-!
Which files a configuration leaves out.

A file is compared with the globs by its path below the directory that is lowered or, if it is
lowered by itself, by the path that it was asked for. The two may differ: what is said of a file by
itself depends on the names of the directories above it.
-/

namespace ParamLowering

open FileEntry

/-! ### The standard patterns -/

namespace Config

/-- The directories with built or installed code that are left out where nothing else is said. -/
def builtNames : List String := ["node_modules", "dist", "build"]

/-- The endings of files that are left out where nothing else is said. -/
def builtEndings : List String := [".min.js", ".d.ts"]

/-- The globs of a configuration that names none. -/
def standardExcludes : List Glob := defaultExcludes.filterMap Glob.ofText?

theorem standardExcludes_eq : standardExcludes =
    builtNames.map (fun n => ⟨"**/" ++ n ++ "/**", Glob.insideTokens n.toList⟩) ++
      builtEndings.map fun e => ⟨"**/*" ++ e, Glob.endingTokens e.toList⟩ := rfl

theorem excludes_of_settle {config : Config} {settings : Settings}
    (hsettle : config.settle = .ok settings) (hincludes : config.includes = [])
    (hexcludes : config.excludes = []) :
    settings.includes = none ∧ settings.excludes = standardExcludes := by
  rw [settle] at hsettle
  split at hsettle
  · cases hsettle
  · cases hsettle
    simp [hincludes, hexcludes, standardExcludes]

end Config

namespace Glob

variable {g : Glob} {path : String}

/-- A pattern that does not end in a dot asks for no name. -/
theorem matchesPath_iff_coversAll {t : GlobToken} (h : g.tokens ≠ [.leadingDirectories])
    (hlast : g.tokens.getLast? = some t) (ht : t.isLiteral '.' = false) :
    g.matchesPath path = true ↔ CoversAll g.tokens (Text.bytes path.toList) := by
  have hname : asksForName g.tokens = false := by
    unfold asksForName
    simp only [hlast, ht, Bool.false_and]
  rw [matchesPath_iff h, hname]
  simp

/-- A path is below a directory of one name if a piece with a separator behind it is that name. -/
theorem matchesPath_inside {name : List Char} (h : g.tokens = insideTokens name)
    (hname : '/' ∉ name) :
    g.matchesPath path = true ↔ name ∈ (Path.pieces path.toList).dropLast := by
  have hlast : g.tokens.getLast? = some .everythingBelow := by
    rw [h]
    exact List.getLast?_concat (l := GlobToken.leadingDirectories :: literals name)
  have hne : g.tokens ≠ [.leadingDirectories] := by
    rw [h, insideTokens]
    simp
  rw [matchesPath_iff_coversAll hne hlast rfl, h, coversAll_inside, Path.mem_dropLast_pieces hname]

theorem matchesPath_ending {ending : List Char} {c : Char} {b : UInt8} (hc : bytesOf c = [b])
    (hb : b.toNat < 128) (h : g.tokens = endingTokens (c :: ending))
    (hdot : (c :: ending).getLast? ≠ some '.') :
    g.matchesPath path = true ↔ c :: ending <:+ path.toList := by
  obtain ⟨d, hd⟩ : ∃ d, (c :: ending).getLast? = some d :=
    ⟨_, List.getLast?_eq_some_getLast (List.cons_ne_nil _ _)⟩
  have hlast : g.tokens.getLast? = some (.literal d) := by
    rw [h, endingTokens, literals, List.map_cons, List.getLast?_cons_cons,
      List.getLast?_cons_cons, ← List.map_cons, List.getLast?_map, hd]
    rfl
  have hother : (GlobToken.literal d).isLiteral '.' = false :=
    beq_eq_false_iff_ne.2 fun heq => hdot (by rw [hd, heq])
  have hne : g.tokens ≠ [.leadingDirectories] := by
    rw [h, endingTokens]
    simp
  rw [matchesPath_iff_coversAll hne hlast hother, h, coversAll_ending hc hb]

end Glob

/-- What the standard patterns leave out: what is below a directory with built or installed code,
and what has one of two endings. -/
theorem Settings.admits_standard {settings : Settings} (hincludes : settings.includes = none)
    (hexcludes : settings.excludes = Config.standardExcludes) (path : String) :
    settings.admits path = false ↔
      (∃ n ∈ Config.builtNames, n.toList ∈ (Path.pieces path.toList).dropLast) ∨
        ∃ e ∈ Config.builtEndings, e.toList <:+ path.toList := by
  have hnames : ∀ n ∈ Config.builtNames, '/' ∉ n.toList := by decide
  have hendings : ∀ e ∈ Config.builtEndings,
      e.toList = '.' :: e.toList.tail ∧ e.toList.getLast? ≠ some '.' := by decide
  rw [admits, hincludes, hexcludes, Config.standardExcludes_eq, Bool.and_true,
    Bool.not_eq_false', List.any_append, List.any_map, List.any_map, Bool.or_eq_true,
    List.any_eq_true, List.any_eq_true]
  refine or_congr ?_ ?_
  · refine exists_congr fun n => and_congr_right fun hn => ?_
    exact Glob.matchesPath_inside rfl (hnames n hn)
  · refine exists_congr fun e => and_congr_right fun he => ?_
    obtain ⟨hform, hdot⟩ := hendings e he
    change Glob.matchesPath ⟨"**/*" ++ e, Glob.endingTokens e.toList⟩ path = true ↔ _
    rw [hform] at hdot ⊢
    exact Glob.matchesPath_ending (b := 46) (by decide) (by decide) rfl hdot

namespace Project

/-! ### What is left out -/

/-- A path is among those that a target stands for, and a run over the target says nothing of it. -/
def Excludes (fs : FileSystem) (settings : Settings) (target path : String) : Prop :=
  ∃ files summary, collect? fs target = some files ∧ lower? fs settings target = some summary ∧
    path ∈ files.map (·.path) ∧ path ∉ summary.lowered.map (·.1.path) ∧
    path ∉ summary.failed.map (·.path)

variable {fs : FileSystem} {settings : Settings} {target : String} {files : List FoundFile}
  {f : FoundFile}

theorem excludes_iff (settings : Settings) (hfiles : collect? fs target = some files)
    (hnodup : (files.map (·.path)).Nodup) (hf : f ∈ files) :
    Excludes fs settings target f.path ↔ settings.admits f.globbed = false := by
  have hlower := lower?_of_collect? settings hfiles
  have hadmits : f.path ∈ (files.filter fun f => settings.admits f.globbed).map (·.path) ↔
      settings.admits f.globbed = true := by
    constructor
    · intro h
      obtain ⟨g, hg, hpath⟩ := List.mem_map.1 h
      obtain ⟨hmem, hadmitted⟩ := List.mem_filter.1 hg
      obtain rfl := List.inj_on_of_nodup_map hnodup hmem hf hpath
      exact hadmitted
    · exact fun h => List.mem_map_of_mem (List.mem_filter.2 ⟨hf, h⟩)
  rw [← Bool.not_eq_true, ← hadmits, ← mem_paths_lowerAll fs settings.warningsAsErrors
    { options := settings.options }, not_or]
  constructor
  · rintro ⟨files', summary, hfiles', hlower', -, hsilent⟩
    rw [hlower, Option.some.injEq] at hlower'
    rwa [← hlower'] at hsilent
  · exact fun h => ⟨files, _, hfiles, hlower, List.mem_map_of_mem hf, h⟩

/-! ### A file alone and in its directory -/

section

variable {dir : String} {entries : List (String × FileEntry)} {names : List String}
  {text : Option (List Char)}

theorem collect?_alone (hdir : fs.find? dir = some (.directory entries)) (htidy : AllTidy entries)
    (h : IsSource entries names text) :
    collect? fs (FoundFile.inDirectory dir names).path =
      some [⟨(FoundFile.inDirectory dir names).path, none⟩] := by
  have hnames := h.isName htidy
  obtain ⟨name, hlast, hextension⟩ := h.supported
  have hname := hnames name (List.mem_of_getLast? hlast)
  have hsupported : SourceFile.isSupported name = true :=
    (Path.isSupported_iff (Path.fileName?_name hname)).2 hextension
  rw [collect?, FoundFile.inDirectory,
    FileSystem.find?_join hdir h.ne_nil hnames h.file (by simp)]
  dsimp only
  rw [Path.fileName?_join dir hlast hnames]
  dsimp only
  rw [if_pos hsupported]

/-- Of the standard patterns, those for directories see the names above a file that is lowered by
itself. -/
theorem admits_standard_join (hincludes : settings.includes = none)
    (hexcludes : settings.excludes = Config.standardExcludes) (hne : names ≠ [])
    (hnames : ∀ n ∈ names, Path.IsName n) :
    settings.admits (Path.join dir (Path.joined names)) = false ↔
      settings.admits (Path.joined names) = false ∨
        ∃ n ∈ Config.builtNames, n ∈ FileSystem.names dir := by
  have hbuilt : ∀ n ∈ Config.builtNames, n.toList ≠ [] := by decide
  have hendings : ∀ e ∈ Config.builtEndings, '/' ∉ e.toList := by decide
  have habove : ∀ n : String, n.toList ∈ Path.pieces dir.toList ↔ n ∈ FileSystem.names dir := by
    intro n
    rw [FileSystem.names, List.mem_map]
    constructor
    · exact fun h => ⟨n.toList, h, String.ofList_toList⟩
    · rintro ⟨cs, hcs, rfl⟩
      rwa [String.toList_ofList]
  rw [Settings.admits_standard hincludes hexcludes, Settings.admits_standard hincludes hexcludes]
  have hinside : (∃ n ∈ Config.builtNames,
        n.toList ∈ (Path.pieces (Path.join dir (Path.joined names)).toList).dropLast) ↔
      (∃ n ∈ Config.builtNames, n ∈ FileSystem.names dir) ∨ ∃ n ∈ Config.builtNames,
        n.toList ∈ (Path.pieces (Path.joined names).toList).dropLast := by
    rw [← exists_or]
    refine exists_congr fun n => ?_
    rw [← and_or_left]
    refine and_congr_right fun hn => ?_
    rw [Path.mem_dropLast_pieces_join dir hne hnames (hbuilt n hn), habove]
  have hending : (∃ e ∈ Config.builtEndings,
        e.toList <:+ (Path.join dir (Path.joined names)).toList) ↔
      ∃ e ∈ Config.builtEndings, e.toList <:+ (Path.joined names).toList :=
    exists_congr fun e => and_congr_right fun he =>
      Path.suffix_join_iff dir hne hnames (hendings e he)
  rw [hinside, hending, or_assoc, or_comm]

end

/-- A run over a directory leaves a file out if its path from there on is not admitted, a run over
the file alone if its whole path is not. With the standard patterns the second happens also where a
directory above is named like one with built or installed code. -/
theorem excludes_found_file {fs : FileSystem} {dir : String} {entries : List (String × FileEntry)}
    {files : List FoundFile} {f : FoundFile} (settings : Settings)
    (hdir : fs.find? dir = some (.directory entries)) (htidy : AllTidy entries)
    (hfiles : collect? fs dir = some files) (hf : f ∈ files) :
    (Excludes fs settings dir f.path ↔ settings.admits f.globbed = false) ∧
    (Excludes fs settings f.path f.path ↔ settings.admits f.path = false) ∧
    ∀ config : Config, config.settle = .ok settings → config.includes = [] →
      config.excludes = [] → (Excludes fs settings f.path f.path ↔
        Excludes fs settings dir f.path ∨ ∃ n ∈ Config.builtNames, n ∈ FileSystem.names dir) := by
  rw [collect?_directory hdir htidy, Option.some.injEq] at hfiles
  subst hfiles
  have hbelow := excludes_iff settings (collect?_directory hdir htidy)
    (nodup_paths htidy) hf
  obtain ⟨names, hnames, rfl⟩ := List.mem_map.1 hf
  obtain ⟨text, hsource⟩ := (mem_sortedSources htidy).1 hnames
  have halone : Excludes fs settings (FoundFile.inDirectory dir names).path
        (FoundFile.inDirectory dir names).path ↔
      settings.admits (FoundFile.inDirectory dir names).path = false :=
    excludes_iff settings (collect?_alone hdir htidy hsource) (List.nodup_singleton _)
      (List.mem_singleton_self _)
  refine ⟨hbelow, halone, fun config hsettle hincludes hexcludes => ?_⟩
  obtain ⟨hnone, hstandard⟩ := Config.excludes_of_settle hsettle hincludes hexcludes
  rw [halone, hbelow]
  exact admits_standard_join hnone hstandard hsource.ne_nil (hsource.isName htidy)

/-- A project below a directory for built code. -/
def builtEntries : List (String × FileEntry) := [("a.js", .file (some []))]

def builtDisk : FileSystem :=
  ⟨.directory [("build", .directory [("p", .directory builtEntries)])], "/"⟩

def standardSettings : Settings := ⟨none, Config.standardExcludes, {}, false⟩

theorem builtEntries_tidy : AllTidy builtEntries := by
  simp only [builtEntries, AllTidy, Tidy]
  decide

theorem builtDisk_find? : builtDisk.find? "/build/p" = some (.directory builtEntries) := rfl

theorem builtDisk_collects :
    collect? builtDisk "/build/p" = some [FoundFile.inDirectory "/build/p" ["a.js"]] := by
  have hsources : sortedSources builtEntries = [["a.js"]] := by
    simp only [sortedSources, builtEntries, sourcesBelow]
    decide +kernel
  rw [collect?_directory builtDisk_find? builtEntries_tidy, hsources]
  rfl

theorem excludes_found_file_built :
    Config.settle {} = .ok standardSettings ∧
    (Excludes builtDisk standardSettings "/build/p/a.js" "/build/p/a.js" ↔
      Excludes builtDisk standardSettings "/build/p" "/build/p/a.js" ∨
        ∃ n ∈ Config.builtNames, n ∈ FileSystem.names "/build/p") := by
  have hsettle : Config.settle {} = .ok standardSettings := rfl
  exact ⟨hsettle, (excludes_found_file standardSettings builtDisk_find? builtEntries_tidy
    builtDisk_collects (List.mem_singleton_self _)).2.2 {} hsettle rfl rfl⟩

/-- The file is lowered with its directory and left out by itself. -/
theorem excludes_depends_on_directory_above :
    Config.settle {} = .ok standardSettings ∧
    collect? builtDisk "/build/p" = some [⟨"/build/p/a.js", some "a.js"⟩] ∧
    ¬ (Excludes builtDisk standardSettings "/build/p/a.js" "/build/p/a.js" ↔
      Excludes builtDisk standardSettings "/build/p" "/build/p/a.js") := by
  have hbelow : ¬ Excludes builtDisk standardSettings "/build/p" "/build/p/a.js" := by
    have h := excludes_iff standardSettings builtDisk_collects
      (List.nodup_singleton _) (List.mem_singleton_self _)
    exact fun hexcluded => absurd (h.1 hexcluded) (by decide +kernel)
  have halone : Excludes builtDisk standardSettings "/build/p/a.js" "/build/p/a.js" := by
    have hcollects : collect? builtDisk "/build/p/a.js" = some [⟨"/build/p/a.js", none⟩] := rfl
    have h := excludes_iff standardSettings hcollects
      (List.nodup_singleton _) (List.mem_singleton_self _)
    exact h.2 (by decide +kernel)
  exact ⟨rfl, builtDisk_collects, fun h => hbelow (h.1 halone)⟩

end Project

end ParamLowering
