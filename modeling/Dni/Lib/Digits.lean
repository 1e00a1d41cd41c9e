import Mathlib.Data.List.Basic

namespace Digits

theorem toDigits_inj {m n : Nat} (h : Nat.toDigits 10 m = Nat.toDigits 10 n) : m = n := by
  have hval := congrArg (Nat.ofDigitChars 10 · 0) h
  simpa using hval

theorem not_mem_toDigits {c : Char} (hc : c.isDigit = false) (n : Nat) : c ∉ Nat.toDigits 10 n := by
  intro hmem
  rw [Nat.isDigit_of_mem_toDigits (by decide) (by decide) hmem] at hc
  cases hc

variable {α : Type} {sep : α} {a b x y : List α}

/-- The first separator tells the two parts of a list. -/
theorem first_inj (ha : sep ∉ a) (hb : sep ∉ b) (h : a ++ sep :: x = b ++ sep :: y) : a = b ∧ x = y := by
  induction a generalizing b with
  | nil =>
    cases b with
    | nil => exact ⟨rfl, (List.cons.inj h).2⟩
    | cons c b => exact absurd (List.cons.inj h).1 fun heq => hb (heq ▸ List.mem_cons_self)
  | cons c a ih =>
    cases b with
    | nil => exact absurd (List.cons.inj h).1 fun heq => ha (heq ▸ List.mem_cons_self)
    | cons d b =>
      obtain ⟨hhead, htail⟩ := List.cons.inj h
      obtain ⟨hab, hxy⟩ := ih (List.not_mem_of_not_mem_cons ha) (List.not_mem_of_not_mem_cons hb) htail
      exact ⟨by rw [hhead, hab], hxy⟩

theorem last_inj (hx : sep ∉ x) (hy : sep ∉ y) (h : a ++ sep :: x = b ++ sep :: y) : a = b ∧ x = y := by
  have hrev : x.reverse ++ sep :: a.reverse = y.reverse ++ sep :: b.reverse := by
    simpa using congrArg List.reverse h
  obtain ⟨hxy, hab⟩ := first_inj (by simpa using hx) (by simpa using hy) hrev
  exact ⟨List.reverse_inj.mp hab, List.reverse_inj.mp hxy⟩

theorem exists_intercalate_cons (seps first : List α) (rest : List (List α)) :
    ∃ tail, List.intercalate seps (first :: rest) = first ++ tail := by
  cases rest with
  | nil => exact ⟨[], by simp⟩
  | cons second rest => exact ⟨_, by rw [List.intercalate_cons_cons, List.append_assoc]⟩

variable [DecidableEq α]

theorem not_mem_of_mem_splitOn {piece : List α} (h : piece ∈ x.splitOn sep) : sep ∉ piece := by
  induction x generalizing piece with
  | nil =>
    rw [List.splitOn_nil, List.mem_singleton] at h
    simp [h]
  | cons c x ih =>
    rw [List.splitOn_cons_eq_if_modifyHead] at h
    by_cases hc : c = sep
    · rw [if_pos (by simpa using hc)] at h
      rcases List.mem_cons.mp h with hnil | hmem
      · simp [hnil]
      · exact ih hmem
    · rw [if_neg (by simpa using hc)] at h
      obtain ⟨first, rest, hsplit⟩ := List.exists_cons_of_ne_nil (List.splitOn_ne_nil sep x)
      rw [hsplit, List.modifyHead_cons] at h
      rcases List.mem_cons.mp h with hpiece | hmem
      · have hfirst := ih (hsplit ▸ List.mem_cons_self)
        rw [hpiece, List.mem_cons, not_or]
        exact ⟨Ne.symm hc, hfirst⟩
      · exact ih (hsplit ▸ List.mem_cons_of_mem _ hmem)

end Digits
