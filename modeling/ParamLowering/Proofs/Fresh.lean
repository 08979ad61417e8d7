import Mathlib.Data.List.Nodup
import Mathlib.Data.List.Perm.Subperm
import ParamLowering.NameSet
set_option autoImplicit false

/-!
Fresh names are new.

The search for a free number makes one step more than there are names taken, and different
numbers give different names, so it ends at a name that is not taken.
-/

namespace ParamLowering.NameSet

theorem numbered_injective {stem : String} {m n : Nat} (h : numbered stem m = numbered stem n) :
    m = n := by
  have hrepr : m.repr = n.repr := (String.append_right_inj stem).1 h
  have hdigits : Nat.toDigits 10 m = Nat.toDigits 10 n := by
    rw [← Nat.toList_repr, ← Nat.toList_repr, hrepr]
  rw [← Nat.ofDigitChars_ten_toDigits (n := m), hdigits, Nat.ofDigitChars_ten_toDigits]

/-- A search that gives up at `n + steps` has met taken names only. -/
theorem firstFree_spec (taken : List String) (stem : String) (steps n : Nat) :
    numbered stem (firstFree taken stem steps n) ∉ taken ∨
      ∀ k, n ≤ k → k < n + steps → numbered stem k ∈ taken := by
  induction steps generalizing n with
  | zero => right; omega
  | succ steps ih =>
    simp only [firstFree, List.contains_eq_mem, decide_eq_true_eq]
    split
    · rename_i hn
      refine (ih (n + 1)).imp_right fun h k hk hlt => ?_
      by_cases hkn : k = n
      · rw [hkn]; exact hn
      · exact h k (by omega) (by omega)
    · rename_i hn
      exact .inl hn

theorem firstFree_notMem (taken : List String) (stem : String) (n : Nat) :
    numbered stem (firstFree taken stem (taken.length + 1) n) ∉ taken := by
  rcases firstFree_spec taken stem (taken.length + 1) n with h | h
  · exact h
  · -- one name more than the list has room for
    have hnodup : ((List.range' n (taken.length + 1)).map (numbered stem)).Nodup :=
      List.Nodup.map (fun _ _ => numbered_injective) List.nodup_range'
    have hsubset : (List.range' n (taken.length + 1)).map (numbered stem) ⊆ taken := by
      intro name hname
      obtain ⟨k, hk, rfl⟩ := List.mem_map.1 hname
      have := List.mem_range'_1.1 hk
      exact h k this.1 this.2
    have hlen := (List.subperm_of_subset hnodup hsubset).length_le
    simp only [List.length_map, List.length_range'] at hlen
    omega

theorem fresh_notMem (s : NameSet) (stem : String) : (s.fresh stem).1 ∉ s.taken :=
  firstFree_notMem s.taken stem _

@[simp] theorem fresh_taken (s : NameSet) (stem : String) :
    (s.fresh stem).2.taken = (s.fresh stem).1 :: s.taken := rfl

theorem mem_add_taken {s : NameSet} {name other : String} :
    other ∈ (s.add name).taken ↔ other = name ∨ other ∈ s.taken := by
  unfold add insert
  split
  · rename_i h
    have hmem : name ∈ s.taken := by simpa [contains] using h
    constructor
    · exact .inr
    · rintro (rfl | h)
      · exact hmem
      · exact h
  · exact List.mem_cons

/-- Names of one stem drawn one after another on the way from one set of names to a larger
one. -/
structure Drawn (stem : String) (before after : NameSet) (names : List String) : Prop where
  subset : before.taken ⊆ after.taken
  nodup : names.Nodup
  numbered : ∀ name ∈ names, ∃ k, name = NameSet.numbered stem k
  fresh : ∀ name ∈ names, name ∉ before.taken
  taken : ∀ name ∈ names, name ∈ after.taken

theorem Drawn.none {stem : String} {before after : NameSet} (h : before.taken ⊆ after.taken) :
    Drawn stem before after [] := ⟨h, List.nodup_nil, by simp, by simp, by simp⟩

theorem Drawn.one (s : NameSet) (stem : String) :
    Drawn stem s (s.fresh stem).2 [(s.fresh stem).1] where
  subset := List.subset_cons_self _ _
  nodup := List.nodup_singleton _
  numbered := by
    intro name hname
    exact ⟨_, List.mem_singleton.1 hname⟩
  fresh := by simpa using fresh_notMem s stem
  taken := by simp

theorem Drawn.append {stem : String} {a b c : NameSet} {xs ys : List String}
    (hx : Drawn stem a b xs) (hy : Drawn stem b c ys) : Drawn stem a c (xs ++ ys) where
  subset := List.Subset.trans hx.subset hy.subset
  nodup := by
    refine List.nodup_append.2 ⟨hx.nodup, hy.nodup, ?_⟩
    rintro x hxs y hys rfl
    exact hy.fresh x hys (hx.taken x hxs)
  numbered := by
    intro name hname
    exact (List.mem_append.1 hname).elim (hx.numbered name) (hy.numbered name)
  fresh := by
    intro name hname
    rcases List.mem_append.1 hname with h | h
    · exact hx.fresh name h
    · exact fun hmem => hy.fresh name h (hx.subset hmem)
  taken := by
    intro name hname
    rcases List.mem_append.1 hname with h | h
    · exact hy.subset (hx.taken name h)
    · exact hy.taken name h

end ParamLowering.NameSet
