import Mathlib.Data.List.Count

namespace Occurrence

variable {α : Type} {p : α → Bool} {l : List α} {i j : Nat} {x : α}

theorem countP_take_lt (hi : l[i]? = some x) (hx : p x = true) (hij : i < j) :
    (l.take i).countP p < (l.take j).countP p := by
  induction l generalizing i j with
  | nil => cases hi
  | cons y l ih =>
    cases j with
    | zero => omega
    | succ j =>
      rw [List.take_succ_cons, List.countP_cons]
      cases i with
      | zero =>
        cases Option.some.inj hi
        rw [List.take_zero, List.countP_nil, if_pos hx]
        omega
      | succ i =>
        have hlt := ih (i := i) (j := j) hi (by omega)
        rw [List.take_succ_cons, List.countP_cons]
        omega

theorem countP_take_lt_countP (hi : l[i]? = some x) (hx : p x = true) : (l.take i).countP p < l.countP p := by
  have hlt := countP_take_lt hi hx (List.getElem?_eq_some_iff.mp hi).1
  rwa [List.take_length] at hlt

/-- The elements that pass have different numbers. -/
theorem countP_take_inj {y : α} (hi : l[i]? = some x) (hj : l[j]? = some y) (hx : p x = true) (hy : p y = true)
    (h : (l.take i).countP p = (l.take j).countP p) : i = j := by
  rcases Nat.lt_trichotomy i j with hlt | heq | hgt
  · have := countP_take_lt hi hx hlt
    omega
  · exact heq
  · have := countP_take_lt hj hy hgt
    omega

/-- Every number below the count is that of an element. -/
theorem exists_countP_take {n : Nat} (hn : n < l.countP p) :
    ∃ (i : Nat) (x : α), l[i]? = some x ∧ p x = true ∧ (l.take i).countP p = n := by
  induction l generalizing n with
  | nil => simp at hn
  | cons y l ih =>
    rw [List.countP_cons] at hn
    by_cases hy : p y = true
    · rw [if_pos hy] at hn
      cases n with
      | zero => exact ⟨0, y, rfl, hy, rfl⟩
      | succ n =>
        obtain ⟨i, x, hi, hx, hcount⟩ := ih (Nat.lt_of_succ_lt_succ hn)
        exact ⟨i + 1, x, hi, hx, by rw [List.take_succ_cons, List.countP_cons, hcount, if_pos hy]⟩
    · rw [if_neg hy] at hn
      obtain ⟨i, x, hi, hx, hcount⟩ := ih hn
      exact ⟨i + 1, x, hi, hx, by rw [List.take_succ_cons, List.countP_cons, hcount, if_neg hy, Nat.add_zero]⟩

end Occurrence
