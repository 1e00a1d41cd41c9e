import Mathlib.Data.List.Nodup
import Mathlib.Logic.Function.Basic

namespace InOrder

variable {α β : Type} [DecidableEq α]

/-- Each point of the list gets its value from the values so far. -/
def eval (f : α → (α → β) → β) (l : List α) (env : α → β) : α → β :=
  l.foldl (fun env a => Function.update env a (f a env)) env

variable {f : α → (α → β) → β} {l : List α} {env : α → β} {a : α}

theorem eval_of_not_mem (ha : a ∉ l) : eval f l env a = env a := by
  unfold eval
  induction l generalizing env with
  | nil => rfl
  | cons b l ih =>
    rw [List.mem_cons, not_or] at ha
    rw [List.foldl_cons, ih ha.2, Function.update_of_ne ha.1]

/-- A point that comes after those that its value depends on has the value that fits theirs. -/
theorem eval_fixed (dep : α → Prop) (hf : ∀ env env', (∀ b, dep b → env b = env' b) → f a env = f a env')
    (hnd : l.Nodup) (hord : ∀ b ∈ l, dep b → ∃ pre post, l = pre ++ a :: post ∧ b ∈ pre) (ha : a ∈ l) :
    eval f l env a = f a (eval f l env) := by
  obtain ⟨pre, post, rfl⟩ := List.append_of_mem ha
  obtain ⟨-, hnd', hdisj⟩ := List.nodup_append.mp hnd
  have hpre : a ∉ pre := fun hmem => hdisj a hmem a List.mem_cons_self rfl
  have hpost : a ∉ post := (List.nodup_cons.mp hnd').1
  have hsplit : eval f (pre ++ a :: post) env =
      eval f post (Function.update (eval f pre env) a (f a (eval f pre env))) := by
    rw [eval, List.foldl_append]
    rfl
  have hself : eval f (pre ++ a :: post) env a = f a (eval f pre env) := by
    rw [hsplit, eval_of_not_mem hpost, Function.update_self]
  rw [hself]
  refine hf _ _ fun b hdep => ?_
  -- what the value depends on is computed before, or not at all
  have hb : b ∉ a :: post := by
    intro hmem
    obtain ⟨pre', post', hl, hb⟩ := hord b (List.mem_append_right _ hmem) hdep
    obtain ⟨rfl, -, -⟩ := (List.append_cons_inj_of_notMem hpre hpost).mp hl
    exact hdisj b hb b hmem rfl
  rw [List.mem_cons, not_or] at hb
  rw [hsplit, eval_of_not_mem hb.2, Function.update_of_ne hb.1]

/-- Points that are changed once each, every one by its own value. -/
theorem eval_own {g : α → β → β} (hf : ∀ a env, f a env = g a (env a)) (hnd : l.Nodup) :
    eval f l env a = if a ∈ l then g a (env a) else env a := by
  unfold eval
  induction l generalizing env with
  | nil => rfl
  | cons b l ih =>
    obtain ⟨hb, hnd'⟩ := List.nodup_cons.mp hnd
    rw [List.foldl_cons, ih hnd', hf]
    by_cases hab : a = b
    · subst hab
      rw [if_neg hb, Function.update_self, if_pos List.mem_cons_self]
    · rw [Function.update_of_ne hab]
      simp [hab]

end InOrder
