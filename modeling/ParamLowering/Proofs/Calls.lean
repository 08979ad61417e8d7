set_option autoImplicit false

/-!
Calls made one after another to something with a state.

The answer to a call is the one that the state left by the calls before it gives.
-/

namespace ParamLowering

variable {S C A : Type} (perform : S → C → A × S)

/-- The answers to some calls, and the state after all of them. -/
def performAll (s : S) : List C → List A × S
  | [] => ([], s)
  | c :: cs =>
    let p := perform s c
    let q := performAll p.2 cs
    (p.1 :: q.1, q.2)

theorem performAll_append (s : S) (cs ds : List C) :
    performAll perform s (cs ++ ds) =
      ((performAll perform s cs).1 ++ (performAll perform (performAll perform s cs).2 ds).1,
        (performAll perform (performAll perform s cs).2 ds).2) := by
  induction cs generalizing s with
  | nil => rfl
  | cons c cs ih => simp only [List.cons_append, performAll, ih]

theorem performAll_concat (s : S) (cs : List C) (c : C) :
    performAll perform s (cs ++ [c]) =
      ((performAll perform s cs).1 ++ [(perform (performAll perform s cs).2 c).1],
        (perform (performAll perform s cs).2 c).2) := performAll_append perform s cs [c]

@[simp] theorem length_performAll (s : S) (cs : List C) :
    (performAll perform s cs).1.length = cs.length := by
  induction cs generalizing s with
  | nil => rfl
  | cons c cs ih => simp only [performAll, List.length_cons, ih]

/-- The calls behind a call have no part in its answer. -/
theorem getElem?_performAll_append (s : S) (before : List C) (c : C) (after : List C) :
    (performAll perform s (before ++ c :: after)).1[before.length]? =
      some (perform (performAll perform s before).2 c).1 := by
  rw [performAll_append, List.getElem?_append_right (Nat.le_of_eq (length_performAll ..)),
    length_performAll, Nat.sub_self]
  rfl

theorem getElem?_performAll (s : S) {cs : List C} {i : Nat} {c : C} (hc : cs[i]? = some c) :
    (performAll perform s cs).1[i]? = some (perform (performAll perform s (cs.take i)).2 c).1 := by
  obtain ⟨hlt, rfl⟩ := List.getElem?_eq_some_iff.1 hc
  have hsplit : cs.take i ++ cs[i] :: cs.drop (i + 1) = cs := by
    rw [List.getElem_cons_drop, List.take_append_drop]
  have hlength : (cs.take i).length = i := by
    rw [List.length_take, Nat.min_eq_left (Nat.le_of_lt hlt)]
  have hanswer := getElem?_performAll_append perform s (cs.take i) cs[i] (cs.drop (i + 1))
  rwa [hsplit, hlength] at hanswer

end ParamLowering
