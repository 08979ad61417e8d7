import Mathlib.Data.List.Nodup
import Mathlib.Data.List.Perm.Basic
import ParamLowering.Proofs.FileTree
import ParamLowering.Proofs.Merge
set_option autoImplicit false

/-!
The source files below a directory.

They are listed in the order of their names from the directory on, name by name, and in whatever
order the directories are listed.
-/

namespace ParamLowering

open FileEntry Project

/-! ### The order of paths -/

namespace Path

theorem before_self (c : PathComponent) : c.before c = false := by
  cases c with
  | name text => exact decide_eq_false (String.lt_irrefl text)
  | root | current | parent => rfl

theorem componentsLe_append (front as bs : List PathComponent) :
    componentsLe (front ++ as) (front ++ bs) = componentsLe as bs := by
  induction front with
  | nil => rfl
  | cons c front ih =>
    rw [List.cons_append, List.cons_append, componentsLe, before_self, ih]
    rfl

/-- Whether names come before other names or are the same. -/
def namesLe (as bs : List String) : Bool := componentsLe (as.map .name) (bs.map .name)

theorem namesLe_iff (as bs : List String) : namesLe as bs = true ↔ ¬ bs < as := by
  rw [namesLe]
  induction as generalizing bs with
  | nil => exact ⟨fun _ => List.not_lt_nil bs, fun _ => by cases bs <;> rfl⟩
  | cons a as ih =>
    cases bs with
    | nil => exact ⟨fun h => (nomatch h), fun h => absurd (List.nil_lt_cons _ _) h⟩
    | cons b bs =>
      rw [List.map_cons, List.map_cons, componentsLe, List.cons_lt_cons_iff]
      simp only [PathComponent.before, decide_eq_true_eq]
      by_cases hab : a < b
      · have hne : ¬ b < a := String.lt_asymm hab
        have hself : b ≠ a := by
          rintro rfl
          exact String.lt_irrefl b hab
        simp [hab, hne, hself]
      · by_cases hba : b < a
        · simp [hab, hba]
        · have heq : b = a := String.le_antisymm hab hba
          subst heq
          rw [if_neg hab, if_neg hab, ih, or_iff_right hab, and_iff_right rfl]

theorem namesLe_total (as bs : List String) (h : namesLe as bs = false) : namesLe bs as = true := by
  have hlt : bs < as := Decidable.not_not.1 fun hnot =>
    Bool.false_ne_true (h.symm.trans ((namesLe_iff as bs).2 hnot))
  exact (namesLe_iff bs as).2 (List.lt_asymm hlt)

theorem namesLe_trans (as bs cs : List String) (h : namesLe as bs = true)
    (h' : namesLe bs cs = true) : namesLe as cs = true := by
  rw [namesLe_iff] at h h' ⊢
  exact List.le_trans h h'

theorem namesLe_antisymm {as bs : List String} (h : namesLe as bs = true)
    (h' : namesLe bs as = true) : as = bs := by
  rw [namesLe_iff] at h h'
  exact List.le_antisymm h h'

/-- Paths below one directory are ordered by their names from there on. -/
theorem le_join (base : String) {as bs : List String} (has : as ≠ []) (hbs : bs ≠ [])
    (ha : ∀ n ∈ as, IsName n) (hb : ∀ n ∈ bs, IsName n) :
    le (join base (joined as)) (join base (joined bs)) = namesLe as bs := by
  rw [le, components_join base has ha, components_join base hbs hb, componentsLe_append]
  rfl

end Path

/-! ### The files of a directory -/

/-- The file at a place below a directory. -/
def FoundFile.inDirectory (dir : String) (names : List String) : FoundFile :=
  ⟨Path.join dir (Path.joined names), some (Path.joined names)⟩

namespace Project

/-- The places of the source files below a directory in their order. -/
def sortedSources (entries : List (String × FileEntry)) : List (List String) :=
  Sorting.sort Path.namesLe (sourcesBelow entries)

variable {entries entries' : List (String × FileEntry)} {names : List String}

theorem mem_sortedSources (h : AllTidy entries) :
    names ∈ sortedSources entries ↔ ∃ text, IsSource entries names text :=
  (Sorting.sort_perm _ _).mem_iff.trans (mem_sourcesBelow h)

theorem sortedSources_increasing (h : AllTidy entries) :
    (sortedSources entries).Pairwise (· < ·) := by
  have hsorted := Sorting.sort_pairwise Path.namesLe_total Path.namesLe_trans (sourcesBelow entries)
  have hnodup := (Sorting.sort_perm Path.namesLe (sourcesBelow entries)).nodup_iff.2
    (nodup_sourcesBelow h)
  refine (hsorted.and hnodup).imp fun {a b} hab => ?_
  refine Decidable.not_not.1 fun hnot => hab.2 ?_
  exact Path.namesLe_antisymm hab.1 ((Path.namesLe_iff b a).2 hnot)

/-- Strictly increasing lists with the same members are the same. -/
theorem eq_of_increasing {as bs : List (List String)} (ha : as.Pairwise (· < ·))
    (hb : bs.Pairwise (· < ·)) (h : ∀ names, names ∈ as ↔ names ∈ bs) : as = bs := by
  have hne : ∀ {a b : List String}, a < b → a ≠ b := by
    rintro a b hab rfl
    exact List.lt_irrefl a hab
  have hperm : as.Perm bs := (List.perm_ext_iff_of_nodup (ha.imp hne) (hb.imp hne)).2 h
  exact hperm.eq_of_pairwise (fun a b _ _ hab hba => absurd hba (List.lt_asymm hab)) ha hb

theorem collect?_directory {fs : FileSystem} {dir : String}
    (hdir : fs.find? dir = some (.directory entries)) (htidy : AllTidy entries) :
    collect? fs dir = some ((sortedSources entries).map (FoundFile.inDirectory dir)) := by
  rw [collect?, hdir]
  dsimp only
  rw [byPath]
  refine congrArg some (Sorting.sort_map (f := FoundFile.inDirectory dir) fun as has bs hbs => ?_)
  obtain ⟨_, ha⟩ := (mem_sourcesBelow htidy).1 has
  obtain ⟨_, hb⟩ := (mem_sourcesBelow htidy).1 hbs
  exact Path.le_join dir ha.ne_nil hb.ne_nil (ha.isName htidy) (hb.isName htidy)

end Project

/-! ### The order of listings -/

namespace FileEntry

variable {entries entries' : List (String × FileEntry)} {names : List String}
  {text : Option (List Char)}

/-- An entry without what is in it. -/
def bare : FileEntry → FileEntry
  | .directory _ => .directory []
  | e => e

/-- The same stands at every place; the directories may be listed in different orders. -/
def SameTree (e e' : FileEntry) : Prop := ∀ place, (e.at? place).map bare = (e'.at? place).map bare

theorem SameTree.symm {e e' : FileEntry} (h : SameTree e e') : SameTree e' e :=
  fun place => (h place).symm

end FileEntry

/-! ### What is collected -/

namespace Project

def sampleDisk (entries : List (String × FileEntry)) : FileSystem :=
  ⟨.directory [("p", .directory entries)], "/"⟩

end Project

end ParamLowering
