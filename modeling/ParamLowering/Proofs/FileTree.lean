import Mathlib.Data.List.Nodup
import ParamLowering.Project
import ParamLowering.Proofs.PathText
set_option autoImplicit false

/-!
Trees of directories and the source files in them.

In a tidy tree, in which the entries of a directory have names of their own, the search below a
directory finds exactly the places of source files, each once.
-/

namespace ParamLowering

open Project

namespace FileEntry

mutual
/-- The entries of every directory have proper names, and no two the same. -/
def Tidy : FileEntry → Prop
  | .directory entries => AllTidy entries
  | .file _ | .link _ => True

def AllTidy : List (String × FileEntry) → Prop
  | [] => True
  | (name, e) :: more =>
    Path.IsName name ∧ (∀ other ∈ more, other.1 ≠ name) ∧ e.Tidy ∧ AllTidy more
end

/-! ### Places -/

theorem at?_append (e : FileEntry) (p q : List String) :
    e.at? (p ++ q) = (e.at? p).bind (·.at? q) := by
  induction p generalizing e with
  | nil => rfl
  | cons name p ih =>
    rw [List.cons_append, at?, at?]
    cases e.child? name with
    | none => rfl
    | some inner => exact ih inner

theorem at?_directory_nil (names : List String) (text : Option (List Char)) :
    (directory []).at? names ≠ some (.file text) := by
  cases names with
  | nil => exact fun h => nomatch Option.some.inj h
  | cons => exact fun h => nomatch h

/-- The way down begins at the entry that has the first name. -/
theorem at?_directory_cons (name n : String) (e : FileEntry)
    (entries : List (String × FileEntry)) (ns : List String) :
    (directory ((name, e) :: entries)).at? (n :: ns) =
      if n = name then e.at? ns else (directory entries).at? (n :: ns) := by
  rw [at?, at?, child?, child?, List.lookup_cons]
  by_cases hn : n = name
  · rw [if_pos hn, beq_iff_eq.2 hn]
    rfl
  · rw [if_neg hn, beq_eq_false_iff_ne.2 hn]

theorem mem_of_lookup {entries : List (String × FileEntry)} {name : String} {e : FileEntry}
    (h : entries.lookup name = some e) : (name, e) ∈ entries := by
  obtain ⟨front, behind, rfl, -⟩ := List.lookup_eq_some_iff.1 h
  exact List.mem_append_right _ List.mem_cons_self

theorem AllTidy.of_mem {entries : List (String × FileEntry)} (h : AllTidy entries)
    {name : String} {e : FileEntry} (he : (name, e) ∈ entries) : Path.IsName name ∧ e.Tidy := by
  induction entries with
  | nil => cases he
  | cons entry entries ih =>
    obtain ⟨other, inner⟩ := entry
    obtain ⟨hname, -, hinner, hmore⟩ := h
    rcases List.mem_cons.1 he with heq | he
    · obtain ⟨rfl, rfl⟩ := Prod.mk.inj heq
      exact ⟨hname, hinner⟩
    · exact ih hmore he

/-- In a tidy tree the way down leads over proper names to tidy trees. -/
theorem Tidy.at? {e inner : FileEntry} {place : List String} (h : e.Tidy)
    (hplace : e.at? place = some inner) : inner.Tidy ∧ ∀ n ∈ place, Path.IsName n := by
  induction place generalizing e with
  | nil => exact ⟨Option.some.inj hplace ▸ h, List.forall_mem_nil _⟩
  | cons name place ih =>
    rw [FileEntry.at?] at hplace
    cases e with
    | file | link => cases hplace
    | directory entries =>
      rw [child?] at hplace
      cases hlookup : entries.lookup name with
      | none =>
        rw [hlookup] at hplace
        cases hplace
      | some next =>
        rw [hlookup] at hplace
        obtain ⟨hname, hnext⟩ := AllTidy.of_mem h (mem_of_lookup hlookup)
        obtain ⟨hinner, hplace⟩ := ih hnext hplace
        exact ⟨hinner, List.forall_mem_cons.2 ⟨hname, hplace⟩⟩

/-! ### Source files -/

/-- A place below a directory holds a source file: the names lead to a file without going over a
link, the last one has an extension of source files, and no directory on the way is skipped. -/
structure IsSource (entries : List (String × FileEntry)) (names : List String)
    (text : Option (List Char)) : Prop where
  file : (directory entries).at? names = some (.file text)
  supported : ∃ name, names.getLast? = some name ∧ Path.HasSourceExtension name
  searched : ∀ d ∈ names.dropLast, isSkipped d = false

variable {name n : String} {e : FileEntry} {entries inner : List (String × FileEntry)}
  {ns names : List String} {text t : Option (List Char)}

theorem IsSource.ne_nil (h : IsSource entries names text) : names ≠ [] := by
  rintro rfl
  exact nomatch Option.some.inj h.file

theorem isSource_cons_of_ne (h : n ≠ name) :
    IsSource ((name, e) :: entries) (n :: ns) text ↔ IsSource entries (n :: ns) text := by
  have hat := at?_directory_cons name n e entries ns
  rw [if_neg h] at hat
  exact ⟨fun h => ⟨hat ▸ h.file, h.supported, h.searched⟩,
    fun h => ⟨hat ▸ h.file, h.supported, h.searched⟩⟩

theorem isSource_cons_file : IsSource ((name, .file t) :: entries) (name :: ns) text ↔
    ns = [] ∧ text = t ∧ Path.HasSourceExtension name := by
  have hat := at?_directory_cons name name (.file t) entries ns
  rw [if_pos rfl] at hat
  constructor
  · rintro ⟨hfile, ⟨last, hlast, hext⟩, -⟩
    rw [hat] at hfile
    cases ns with
    | cons => cases hfile
    | nil =>
      cases hfile
      cases hlast
      exact ⟨rfl, rfl, hext⟩
  · rintro ⟨rfl, rfl, hext⟩
    exact ⟨hat, ⟨name, rfl, hext⟩, List.forall_mem_nil _⟩

theorem isSource_cons_directory : IsSource ((name, .directory inner) :: entries) (name :: ns) text ↔
    isSkipped name = false ∧ IsSource inner ns text := by
  have hat := at?_directory_cons name name (.directory inner) entries ns
  rw [if_pos rfl] at hat
  cases ns with
  | nil => exact ⟨fun h => (nomatch hat ▸ h.file), fun h => absurd rfl h.2.ne_nil⟩
  | cons n ns =>
    constructor
    · rintro ⟨hfile, hsupported, hsearched⟩
      obtain ⟨hname, hmore⟩ := List.forall_mem_cons.1 hsearched
      exact ⟨hname, hat ▸ hfile, hsupported, hmore⟩
    · rintro ⟨hname, hfile, hsupported, hsearched⟩
      exact ⟨hat ▸ hfile, hsupported, List.forall_mem_cons.2 ⟨hname, hsearched⟩⟩

theorem not_isSource_link {target : String} :
    ¬ IsSource ((name, .link target) :: entries) (name :: ns) text := by
  have hat := at?_directory_cons name name (.link target) entries ns
  rw [if_pos rfl] at hat
  intro h
  have hfile := hat ▸ h.file
  cases ns with
  | nil => cases hfile
  | cons => cases hfile

/-! ### The search -/

/-- What the search finds at one entry. -/
def sourcesIn (name : String) : FileEntry → List (List String)
  | .file _ => if SourceFile.isSupported name then [[name]] else []
  | .directory inner => if isSkipped name then [] else (sourcesBelow inner).map (name :: ·)
  | .link _ => []

theorem sourcesBelow_cons : sourcesBelow ((name, e) :: entries) =
    sourcesIn name e ++ sourcesBelow entries := by
  cases e <;> rw [sourcesBelow] <;> rfl

theorem head?_of_mem_sourcesIn (h : names ∈ sourcesIn name e) : names.head? = some name := by
  cases e with
  | link => cases h
  | file t =>
    rw [sourcesIn] at h
    split at h
    · rw [List.mem_singleton.1 h]
      rfl
    · cases h
  | directory inner =>
    rw [sourcesIn] at h
    split at h
    · cases h
    · obtain ⟨ns, -, rfl⟩ := List.mem_map.1 h
      rfl

theorem head?_of_mem_sourcesBelow (h : names ∈ sourcesBelow entries) :
    ∃ entry ∈ entries, names.head? = some entry.1 := by
  induction entries with
  | nil =>
    rw [sourcesBelow] at h
    cases h
  | cons entry entries ih =>
    obtain ⟨name, e⟩ := entry
    rw [sourcesBelow_cons] at h
    rcases List.mem_append.1 h with h | h
    · exact ⟨(name, e), List.mem_cons_self, head?_of_mem_sourcesIn h⟩
    · obtain ⟨entry, hentry, hhead⟩ := ih h
      exact ⟨entry, List.mem_cons_of_mem _ hentry, hhead⟩

/-- The first name tells which entry a place belongs to. -/
theorem mem_sourcesBelow_cons (hname : ∀ other ∈ entries, other.1 ≠ name)
    (hentries : ∀ names, names ∈ sourcesBelow entries ↔ ∃ text, IsSource entries names text)
    (hentry : ∀ ns, name :: ns ∈ sourcesIn name e ↔
      ∃ text, IsSource ((name, e) :: entries) (name :: ns) text) (names : List String) :
    names ∈ sourcesBelow ((name, e) :: entries) ↔
      ∃ text, IsSource ((name, e) :: entries) names text := by
  rw [sourcesBelow_cons, List.mem_append]
  cases names with
  | nil =>
    constructor
    · rintro (h | h)
      · cases head?_of_mem_sourcesIn h
      · obtain ⟨_, -, hhead⟩ := head?_of_mem_sourcesBelow h
        cases hhead
    · rintro ⟨text, h⟩
      exact absurd rfl h.ne_nil
  | cons n ns =>
    by_cases hn : n = name
    · subst hn
      rw [hentry]
      refine or_iff_left fun h => ?_
      obtain ⟨other, hother, hhead⟩ := head?_of_mem_sourcesBelow h
      exact hname other hother (Option.some.inj hhead).symm
    · have hnot : n :: ns ∉ sourcesIn name e := fun h =>
        hn (Option.some.inj (head?_of_mem_sourcesIn h))
      rw [or_iff_right hnot, hentries]
      simp only [isSource_cons_of_ne hn]

/-- The search finds the places of source files. -/
theorem mem_sourcesBelow (h : AllTidy entries) :
    names ∈ sourcesBelow entries ↔ ∃ text, IsSource entries names text := by
  induction entries using sourcesBelow.induct generalizing names with
  | case1 =>
    rw [sourcesBelow]
    exact ⟨fun h => (nomatch h), fun ⟨_, h⟩ => absurd h.file (at?_directory_nil _ _)⟩
  | case2 name t entries ih =>
    obtain ⟨hname, hother, -, hmore⟩ := h
    refine mem_sourcesBelow_cons hother (fun _ => ih hmore) (fun ns => ?_) _
    have hsupported := Path.isSupported_iff (Path.fileName?_name hname)
    simp only [isSource_cons_file, ← hsupported, sourcesIn]
    split <;> simp_all
  | case3 name inner entries ihInner ih =>
    obtain ⟨-, hother, hinner, hmore⟩ := h
    refine mem_sourcesBelow_cons hother (fun _ => ih hmore) (fun ns => ?_) _
    have hinside : ns ∈ sourcesBelow inner ↔ ∃ text, IsSource inner ns text := ihInner hinner
    simp only [isSource_cons_directory, sourcesIn]
    split <;> simp_all
  | case4 name target entries ih =>
    obtain ⟨-, hother, -, hmore⟩ := h
    refine mem_sourcesBelow_cons hother (fun _ => ih hmore) (fun ns => ?_) _
    exact ⟨fun h => (nomatch h), fun ⟨_, h⟩ => absurd h not_isSource_link⟩

theorem nodup_sourcesBelow_cons (hname : ∀ other ∈ entries, other.1 ≠ name)
    (hentry : (sourcesIn name e).Nodup) (hentries : (sourcesBelow entries).Nodup) :
    (sourcesBelow ((name, e) :: entries)).Nodup := by
  rw [sourcesBelow_cons]
  refine List.Nodup.append hentry hentries fun names hin hbelow => ?_
  obtain ⟨other, hother, hhead⟩ := head?_of_mem_sourcesBelow hbelow
  rw [head?_of_mem_sourcesIn hin] at hhead
  exact hname other hother (Option.some.inj hhead).symm

/-- The search finds no place twice. -/
theorem nodup_sourcesBelow (h : AllTidy entries) : (sourcesBelow entries).Nodup := by
  induction entries using sourcesBelow.induct with
  | case1 =>
    rw [sourcesBelow]
    exact List.nodup_nil
  | case2 name t entries ih =>
    obtain ⟨-, hother, -, hmore⟩ := h
    refine nodup_sourcesBelow_cons hother ?_ (ih hmore)
    rw [sourcesIn]
    split
    · exact List.nodup_singleton _
    · exact List.nodup_nil
  | case3 name inner entries ihInner ih =>
    obtain ⟨-, hother, hinner, hmore⟩ := h
    refine nodup_sourcesBelow_cons hother ?_ (ih hmore)
    rw [sourcesIn]
    split
    · exact List.nodup_nil
    · exact List.Nodup.map (fun _ _ heq => (List.cons.inj heq).2) (ihInner hinner)
  | case4 name target entries ih =>
    obtain ⟨-, hother, -, hmore⟩ := h
    exact nodup_sourcesBelow_cons hother List.nodup_nil (ih hmore)

/-- The names on the way to a source file in a tidy tree are proper. -/
theorem IsSource.isName (h : IsSource entries names text) (htidy : AllTidy entries) :
    ∀ n ∈ names, Path.IsName n := by
  have hdirectory : (directory entries).Tidy := by
    rw [Tidy]
    exact htidy
  exact (hdirectory.at? h.file).2

end FileEntry

end ParamLowering
