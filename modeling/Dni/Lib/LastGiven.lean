import Dni.Lib.GoMap

namespace LastGiven

variable {κ ν : Type} [DecidableEq κ]

/-- The value that a list gives last to a key. -/
def lastGiven : List (κ × ν) → κ → Option ν
  | [], _ => none
  | e :: es, k => (lastGiven es k).or (if e.1 = k then some e.2 else none)

theorem lastGiven_append (es es' : List (κ × ν)) (k : κ) :
    lastGiven (es ++ es') k = (lastGiven es' k).or (lastGiven es k) := by
  induction es with
  | nil => rw [List.nil_append, lastGiven, Option.or_none]
  | cons e es ih => rw [List.cons_append, lastGiven, lastGiven, ih, Option.or_assoc]

theorem lastGiven_concat (es : List (κ × ν)) (e : κ × ν) (k : κ) :
    lastGiven (es ++ [e]) k = if e.1 = k then some e.2 else lastGiven es k := by
  rw [lastGiven_append, lastGiven, lastGiven, Option.none_or]
  split
  · rw [Option.some_or]
  · rw [Option.none_or]

theorem lastGiven_eq_none {es : List (κ × ν)} {k : κ} : lastGiven es k = none ↔ ∀ e ∈ es, e.1 ≠ k := by
  induction es with
  | nil => simp [lastGiven]
  | cons e es ih =>
    rw [lastGiven, Option.or_eq_none_iff, ih, List.forall_mem_cons, and_comm]
    simp

theorem exists_lastGiven_iff {es : List (κ × ν)} {k : κ} : (∃ v, lastGiven es k = some v) ↔ ∃ e ∈ es, e.1 = k := by
  rw [← Option.isSome_iff_exists, ← Option.ne_none_iff_isSome, Ne, lastGiven_eq_none]
  push Not
  rfl

end LastGiven
