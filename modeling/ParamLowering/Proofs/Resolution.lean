import ParamLowering.Proofs.FileTree
set_option autoImplicit false

/-!
Resolving paths below a directory.

A path that leads to a directory, with names behind it, leads to what stands at these names below
the directory.
-/

namespace ParamLowering

open FileEntry

namespace Path

theorem isAbsolute_join (base : String) {names : List String} (hne : names ≠ [])
    (h : ∀ n ∈ names, IsName n) : isAbsolute (join base (joined names)) = isAbsolute base := by
  rcases toList_join base hne h with ⟨hbase, hjoin⟩ | ⟨front, hbase, hjoin⟩ | ⟨hbase, hjoin⟩
  · have hnames := isAbsolute_joined hne h
    rw [isAbsolute] at hnames
    rw [isAbsolute, isAbsolute, hjoin, hnames, hbase]
    rfl
  · rw [isAbsolute, isAbsolute, hjoin, hbase]
    cases front <;> rfl
  · obtain ⟨c, cs, hcs⟩ := List.exists_cons_of_ne_nil hbase
    rw [isAbsolute, isAbsolute, hjoin, hcs]
    rfl

end Path

namespace FileSystem

variable {top : FileEntry} {follow : List String → String → Option (List String)}
  {entries : List (String × FileEntry)} {place : List String}

theorem walk_append (place names more : List String) : walk top follow place (names ++ more) =
    (walk top follow place names).bind fun p => walk top follow p more := by
  induction names generalizing place with
  | nil => rfl
  | cons name names ih =>
    rw [List.cons_append, walk, walk]
    split
    case h_2 => rfl
    case h_1 entries hplace =>
      split
      · exact ih place
      split
      · exact ih place.dropLast
      split
      · rw [Option.bind_assoc]
        exact congrArg _ (funext fun p => ih p)
      · exact ih (place ++ [name])
      · rfl

/-- An empty name asks for a directory and stays there. -/
theorem walk_empty {p : List String} (h : walk top follow p [""] = some place) : p = place := by
  rw [walk] at h
  split at h
  · exact Option.some.inj h
  · cases h

theorem walk_name {name : String} {names : List String} {e : FileEntry} (hname : Path.IsName name)
    (hplace : top.at? place = some (.directory entries)) (he : entries.lookup name = some e)
    (hlink : ∀ target, e ≠ .link target) :
    walk top follow place (name :: names) = walk top follow (place ++ [name]) names := by
  have hidle : ¬ (name = "" || name = ".") = true := by
    rintro h
    rcases Bool.or_eq_true_iff.1 h with h | h
    · exact hname.nonempty (by rw [of_decide_eq_true h]; rfl)
    · exact hname.notDot (by rw [of_decide_eq_true h]; rfl)
  have hup : name ≠ ".." := by
    rintro rfl
    exact hname.notDots rfl
  rw [walk, hplace]
  dsimp only
  rw [if_neg hidle, if_neg hup, he]
  cases e with
  | link target => exact absurd rfl (hlink target)
  | file | directory => rfl

/-- Proper names lead down to what stands there. -/
theorem walk_down {names : List String} {e : FileEntry} (hnames : ∀ n ∈ names, Path.IsName n)
    (hplace : top.at? place = some (.directory entries))
    (he : (directory entries).at? names = some e) (hlink : ∀ target, e ≠ .link target) :
    walk top follow place names = some (place ++ names) := by
  induction names generalizing place entries with
  | nil => rw [walk, List.append_nil]
  | cons name names ih =>
    obtain ⟨hname, hnames⟩ := List.forall_mem_cons.1 hnames
    rw [FileEntry.at?, child?] at he
    obtain ⟨next, hnext, he⟩ := Option.bind_eq_some_iff.1 he
    have hbelow : top.at? (place ++ [name]) = some next := by
      rw [at?_append, hplace, Option.bind_some, FileEntry.at?, child?, hnext]
      rfl
    cases next with
    | link target =>
      cases names with
      | nil => exact absurd (Option.some.inj he).symm (hlink target)
      | cons => cases he
    | file text =>
      cases names with
      | nil => exact walk_name hname hplace hnext (by simp)
      | cons => cases he
    | directory inner =>
      rw [walk_name hname hplace hnext (by simp), ih hnames hbelow he,
        List.append_assoc]
      rfl

/-- A path is followed from the top or from a place, and one nested link less may follow. -/
theorem resolveFrom_deepest (place : List String) (path : String) :
    resolveFrom top deepestLink place path =
      walk top (resolveFrom top (deepestLink - 1)) (if Path.isAbsolute path then [] else place)
        (names path) := rfl

variable {fs : FileSystem} {dir : String} {below : List String} {e : FileEntry}

theorem names_join (dir : String) (hne : below ≠ []) (h : ∀ n ∈ below, Path.IsName n) :
    ∃ front, names (Path.join dir (Path.joined below)) = front ++ below ∧
      (names dir = front ∨ names dir = front ++ [""]) := by
  obtain ⟨front, hjoin, hdir⟩ := Path.pieces_join dir hne h
  refine ⟨front.map String.ofList, ?_, ?_⟩
  · rw [names, hjoin, List.map_append, List.map_map]
    refine congrArg _ ((List.map_congr_left fun n _ => ?_).trans (List.map_id below))
    exact String.ofList_toList
  · refine hdir.imp (fun hdir => ?_) fun hdir => ?_
    · rw [names, hdir]
    · rw [names, hdir, List.map_append]
      rfl

/-- The path of names below a directory leads to what stands there. -/
theorem find?_join (hdir : fs.find? dir = some (.directory entries)) (hne : below ≠ [])
    (hbelow : ∀ n ∈ below, Path.IsName n) (he : (directory entries).at? below = some e)
    (hlink : ∀ target, e ≠ .link target) :
    fs.find? (Path.join dir (Path.joined below)) = some e := by
  obtain ⟨place, hresolve, hplace⟩ := Option.bind_eq_some_iff.1 hdir
  obtain ⟨base, hbase, hwalk⟩ := Option.bind_eq_some_iff.1 hresolve
  rw [resolveFrom_deepest] at hwalk
  obtain ⟨front, hjoin, hfront⟩ := names_join dir hne hbelow
  -- the names of the directory lead to its place, whether they end in a separator or not
  have hreached : walk fs.top (resolveFrom fs.top (deepestLink - 1))
      (if Path.isAbsolute dir then [] else base) front = some place := by
    rcases hfront with hfront | hfront
    · rwa [hfront] at hwalk
    · rw [hfront, walk_append] at hwalk
      obtain ⟨p, hp, hlast⟩ := Option.bind_eq_some_iff.1 hwalk
      rwa [walk_empty hlast] at hp
  rw [find?, resolve?, hbase, Option.bind_some, resolveFrom_deepest,
    Path.isAbsolute_join dir hne hbelow, hjoin, walk_append, hreached, Option.bind_some,
    walk_down hbelow hplace he hlink, Option.bind_some, at?_append, hplace]
  exact he

end FileSystem

end ParamLowering
