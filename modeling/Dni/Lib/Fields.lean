import Mathlib.Data.List.Forall2

namespace Fields

variable {α : Type} {c : α} {s : List α}

/-- Two fields that can stand before a separator: equal, or both free of its first letter. -/
def Match (c : α) (a b : List α) : Prop := a = b ∨ c ∉ a ∧ c ∉ b

theorem append_inj {a b x y : List α} (hm : Match c a b) (h : a ++ (c :: s ++ x) = b ++ (c :: s ++ y)) :
    a = b ∧ x = y := by
  obtain hab | ⟨ha, hb⟩ := hm
  · subst hab
    exact ⟨rfl, List.append_cancel_left (List.append_cancel_left h)⟩
  · induction a generalizing b with
    | nil =>
      cases b with
      | nil => exact ⟨rfl, List.append_cancel_left (List.append_cancel_left h)⟩
      | cons b bs =>
        have hcb : c = b := (List.cons.inj h).1
        exact absurd (by simp [hcb]) hb
    | cons a as ih =>
      cases b with
      | nil =>
        have hac : a = c := (List.cons.inj h).1
        exact absurd (by simp [hac]) ha
      | cons b bs =>
        obtain ⟨hab, htail⟩ := List.cons.inj h
        obtain ⟨has, hxy⟩ := ih htail (fun hc => ha (by simp [hc])) (fun hc => hb (by simp [hc]))
        exact ⟨by rw [hab, has], hxy⟩

/-- Fields that match one by one can be read back from the joined text. -/
theorem intercalate_inj {xs ys : List (List α)} (hm : List.Forall₂ (Match c) xs ys)
    (h : (c :: s).intercalate xs = (c :: s).intercalate ys) : xs = ys := by
  induction hm with
  | nil => rfl
  | @cons a b as bs hab hs ih =>
    cases hs with
    | nil => simpa using h
    | @cons a' b' as bs hab' hs =>
      rw [List.intercalate_cons_cons, List.intercalate_cons_cons, List.append_assoc,
        List.append_assoc] at h
      obtain ⟨hhead, htail⟩ := append_inj hab h
      rw [hhead, ih htail]

end Fields
