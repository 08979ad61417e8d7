import Mathlib.Data.List.Induction
import Mathlib.Order.Bounds.Basic
import ParamLowering.Proofs.Calls
import ParamLowering.Proofs.Fresh
set_option autoImplicit false

/-!
Fresh names after any calls.

A search starts where the last search of its stem ended, and still finds the least free number:
every smaller number of the stem was taken then, and no name is given back.
-/

namespace ParamLowering

/-- A call that may take a name. -/
inductive NameCall where
  | insert (name : String)
  | fresh (stem : String)
  deriving DecidableEq, Repr

inductive NameAnswer where
  | isNew (new : Bool)
  | name (name : String)
  deriving DecidableEq, Repr

namespace NameSet

def perform (s : NameSet) : NameCall → NameAnswer × NameSet
  | .insert name => (.isNew (s.insert name).1, (s.insert name).2)
  | .fresh stem => (.name (s.fresh stem).1, (s.fresh stem).2)

/-! ### The least free number -/

/-- No search starts behind a free number. -/
def Resumes (s : NameSet) : Prop :=
  ∀ stem n, s.resume.lookup stem = some n → ∀ k < n, numbered stem k ∈ s.taken

theorem Resumes.start {s : NameSet} (h : s.Resumes) (stem : String) :
    ∀ k < (s.resume.lookup stem).getD 0, numbered stem k ∈ s.taken := by
  intro k hk
  cases hstem : s.resume.lookup stem with
  | none => rw [hstem] at hk; exact absurd hk (Nat.not_lt_zero k)
  | some n => rw [hstem] at hk; exact h stem n hstem k hk

/-- A search passes over taken names only. -/
theorem numbered_mem_of_lt_firstFree (taken : List String) (stem : String) (steps n : Nat) :
    ∀ k, n ≤ k → k < firstFree taken stem steps n → numbered stem k ∈ taken := by
  induction steps generalizing n with
  | zero =>
    intro k hle hlt
    exact absurd hlt (Nat.not_lt.2 hle)
  | succ steps ih =>
    intro k hle hlt
    simp only [firstFree, List.contains_eq_mem, decide_eq_true_eq] at hlt
    split at hlt
    · rename_i hn
      by_cases hkn : k = n
      · rw [hkn]; exact hn
      · exact ih (n + 1) k (by omega) hlt
    · omega

theorem fresh_isLeast {s : NameSet} (h : s.Resumes) (stem : String) :
    ∃ n, (s.fresh stem).1 = numbered stem n ∧ IsLeast {k | numbered stem k ∉ s.taken} n ∧
      (s.fresh stem).2.resume = (stem, n + 1) :: s.resume := by
  refine ⟨_, rfl, ⟨fresh_notMem s stem, fun k hk => ?_⟩, rfl⟩
  by_contra hlt
  rcases Nat.lt_or_ge k ((s.resume.lookup stem).getD 0) with hstart | hstart
  · exact hk (h.start stem k hstart)
  · exact hk (numbered_mem_of_lt_firstFree s.taken stem _ _ k hstart (Nat.not_le.1 hlt))

theorem Resumes.insert {s : NameSet} (h : s.Resumes) (name : String) :
    (s.insert name).2.Resumes := by
  intro stem n hn k hk
  refine mem_add_taken.2 (.inr (h stem n ?_ k hk))
  rw [NameSet.insert] at hn
  split at hn <;> exact hn

theorem Resumes.fresh {s : NameSet} (h : s.Resumes) (stem : String) :
    (s.fresh stem).2.Resumes := by
  obtain ⟨n, hname, hleast, hresume⟩ := fresh_isLeast h stem
  intro other m hm k hk
  rw [fresh_taken, List.mem_cons]
  rw [hresume, List.lookup_cons] at hm
  by_cases hstem : other = stem
  · -- below the number given out all are taken, and it is taken now
    subst hstem
    simp only [beq_self_eq_true, Option.some.injEq] at hm
    by_cases hkn : k = n
    · rw [hname, hkn]; exact .inl rfl
    · refine .inr (not_not.1 fun hfree => ?_)
      have hle := hleast.2 hfree
      omega
  · have hne : (other == stem) = false := by simpa using hstem
    rw [hne] at hm
    exact .inr (h other m hm k hk)

/-! ### Histories -/

/-- The names after some calls, oldest first. -/
def after (calls : List NameCall) : NameSet := (performAll perform empty calls).2

def answers (calls : List NameCall) : List NameAnswer := (performAll perform empty calls).1

/-- The name was inserted or given out. -/
def Used (calls : List NameCall) (name : String) : Prop :=
  .insert name ∈ calls ∨ .name name ∈ answers calls

theorem after_concat (calls : List NameCall) (c : NameCall) :
    after (calls ++ [c]) = ((after calls).perform c).2 := by
  rw [after, performAll_concat]
  rfl

theorem answers_concat (calls : List NameCall) (c : NameCall) :
    answers (calls ++ [c]) = answers calls ++ [((after calls).perform c).1] := by
  rw [answers, performAll_concat]
  rfl

theorem resumes_after (calls : List NameCall) : (after calls).Resumes := by
  induction calls using List.reverseRecOn with
  | nil => intro stem n hn; cases hn
  | append_singleton calls c ih =>
    rw [after_concat]
    cases c with
    | insert name => exact ih.insert name
    | fresh stem => exact ih.fresh stem

theorem mem_after_iff (calls : List NameCall) (name : String) :
    name ∈ (after calls).taken ↔ Used calls name := by
  induction calls using List.reverseRecOn with
  | nil => simp [after, answers, Used, performAll, empty]
  | append_singleton calls c ih =>
    rw [after_concat, Used, answers_concat, List.mem_append, List.mem_append]
    cases c with
    | insert other =>
      rw [perform, ← add, mem_add_taken, ih, Used]
      simp only [List.mem_singleton, NameCall.insert.injEq, reduceCtorEq, or_false]
      exact or_left_comm.trans or_assoc.symm
    | fresh stem =>
      rw [perform, fresh_taken, List.mem_cons, ih, Used]
      simp only [List.mem_singleton, NameAnswer.name.injEq, reduceCtorEq, or_false]
      rw [or_comm, or_assoc]

/-- After any calls, a fresh name of a stem is the stem with the least number of those whose name
was neither inserted nor given out; this name is taken by the call, and no other. -/
theorem fresh_least_unused (before behind : List NameCall) (stem : String) :
    ∃ n, (answers (before ++ .fresh stem :: behind))[before.length]? =
        some (.name (numbered stem n)) ∧
      IsLeast {k | numbered stem k ∉ (after before).taken} n ∧
      (∀ name, name ∈ (after (before ++ [.fresh stem])).taken ↔
        name = numbered stem n ∨ name ∈ (after before).taken) ∧
      (∀ name, name ∈ (after before).taken ↔ Used before name) ∧
      ¬Used before (numbered stem n) := by
  obtain ⟨n, hname, hleast, -⟩ := fresh_isLeast (resumes_after before) stem
  have hanswer : ((after before).perform (.fresh stem)).1 = .name (numbered stem n) :=
    congrArg NameAnswer.name hname
  refine ⟨n, ?_, hleast, fun name => ?_, mem_after_iff before, ?_⟩
  · rw [answers, getElem?_performAll_append, ← after, hanswer]
  · rw [after_concat, perform, fresh_taken, hname, List.mem_cons]
  · rw [← mem_after_iff]
    exact hleast.1

end NameSet

end ParamLowering
