import Dni.Lib.Diamond
import Dni.Lib.ReadyOrder
import Mathlib.Data.List.Induction
import Mathlib.Logic.Function.Basic

namespace Threads

variable {κ : Type} {υ : κ → Type} {β γ ι : Type}

/-- A program ends, or it reads a cell, writes the cell and goes on with what it has read. -/
inductive Prog (υ : κ → Type) (β : Type)
  | done (b : β)
  | access (c : κ) (write : υ c → υ c) (next : υ c → Prog υ β)

namespace Prog

def bind : Prog υ β → (β → Prog υ γ) → Prog υ γ
  | .done b, f => f b
  | .access c write next, f => .access c write fun v => (next v).bind f

instance : Monad (Prog υ) where
  pure := .done
  bind := bind

/-- Read a cell. -/
def read (c : κ) : Prog υ (υ c) := .access c id .done

/-- Change a cell. -/
def modify (c : κ) (f : υ c → υ c) : Prog υ Unit := .access c f fun _ => .done ()

/-- Change a cell and take something out of it. -/
def take (c : κ) (f : υ c → β × υ c) : Prog υ β := .access c (fun v => (f v).2) fun v => .done (f v).1

def ended : Prog υ β → Bool
  | .done _ => true
  | .access .. => false

/-- All cells that the program may come to are among these. -/
def Within (cells : κ → Prop) : Prog υ β → Prop
  | .done _ => True
  | .access c _ next => cells c ∧ ∀ v, (next v).Within cells

section Within

variable {cells : κ → Prop}

@[simp] theorem within_pure (b : β) : (pure b : Prog υ β).Within cells := trivial

@[simp] theorem within_read {c : κ} : (read c : Prog υ (υ c)).Within cells ↔ cells c :=
  and_iff_left fun _ => trivial

@[simp] theorem within_modify {c : κ} {f : υ c → υ c} : (modify c f).Within cells ↔ cells c :=
  and_iff_left fun _ => trivial

@[simp] theorem within_take {c : κ} {f : υ c → β × υ c} : (take c f).Within cells ↔ cells c :=
  and_iff_left fun _ => trivial

theorem Within.bind {p : Prog υ β} (hp : p.Within cells) {f : β → Prog υ γ} (hf : ∀ b, (f b).Within cells) :
    (p >>= f).Within cells := by
  induction p with
  | done b => exact hf b
  | access c write next ih => exact ⟨hp.1, fun v => ih v (hp.2 v)⟩

theorem within_forM {α : Type} {f : α → Prog υ Unit} {xs : List α} (hf : ∀ x ∈ xs, (f x).Within cells) :
    (xs.forM f).Within cells := by
  induction xs with
  | nil => trivial
  | cons x xs ih =>
    rw [List.forall_mem_cons] at hf
    exact hf.1.bind fun _ => ih hf.2

theorem Within.imp {cells' : κ → Prop} (himp : ∀ c, cells c → cells' c) {p : Prog υ β} (hp : p.Within cells) :
    p.Within cells' := by
  induction p with
  | done b => trivial
  | access c write next ih => exact ⟨himp c hp.1, fun v => ih v (hp.2 v)⟩

end Within

variable [DecidableEq κ]

/-- The next access of a program that has not ended. -/
def step (mem : ∀ c, υ c) : Prog υ β → Option ((∀ c, υ c) × Prog υ β)
  | .done _ => none
  | .access c write next => some (Function.update mem c (write (mem c)), next (mem c))

/-- All accesses, with nothing in between. -/
def run : Prog υ β → (∀ c, υ c) → β × ∀ c, υ c
  | .done b, mem => (b, mem)
  | .access c write next, mem => (next (mem c)).run (Function.update mem c (write (mem c)))

section Run

variable (mem : ∀ c, υ c)

@[simp] theorem run_pure (b : β) : (pure b : Prog υ β).run mem = (b, mem) := rfl

@[simp] theorem run_bind (p : Prog υ β) (f : β → Prog υ γ) : (p >>= f).run mem = (f (p.run mem).1).run (p.run mem).2 := by
  induction p generalizing mem with
  | done b => rfl
  | access c write next ih => exact ih (mem c) _

@[simp] theorem run_read (c : κ) : (read c : Prog υ (υ c)).run mem = (mem c, mem) := by
  rw [read, run, id, Function.update_eq_self]
  rfl

@[simp] theorem run_modify (c : κ) (f : υ c → υ c) :
    (modify c f).run mem = ((), Function.update mem c (f (mem c))) := rfl

@[simp] theorem run_take (c : κ) (f : υ c → β × υ c) :
    (take c f).run mem = ((f (mem c)).1, Function.update mem c (f (mem c)).2) := rfl

theorem run_forM_cons {α : Type} (f : α → Prog υ Unit) (x : α) (xs : List α) :
    ((x :: xs).forM f).run mem = (xs.forM f).run ((f x).run mem).2 := run_bind _ _ _

/-- What holds before a loop, and is passed on by each round, holds behind the loop. -/
theorem run_forM {α : Type} {f : α → Prog υ Unit} {xs : List α} (P : List α → (∀ c, υ c) → Prop) (h : P [] mem)
    (hround : ∀ pre x post m, xs = pre ++ x :: post → P pre m → P (pre ++ [x]) ((f x).run m).2) :
    P xs ((xs.forM f).run mem).2 := by
  have hrest : ∀ pre post m, xs = pre ++ post → P pre m → P xs ((post.forM f).run m).2 := by
    intro pre post
    induction post generalizing pre with
    | nil =>
      intro m hxs hpre
      rw [List.append_nil] at hxs
      rw [hxs]
      exact hpre
    | cons x post ih =>
      intro m hxs hpre
      rw [run_forM_cons]
      refine ih (pre ++ [x]) _ ?_ (hround pre x post m hxs hpre)
      rw [hxs, List.append_assoc, List.singleton_append]
  exact hrest [] xs mem rfl h

/-- The rule for a loop that counts. -/
theorem run_forM_range {f : Nat → Prog υ Unit} {n : Nat} (P : Nat → (∀ c, υ c) → Prop) (h : P 0 mem)
    (hround : ∀ k m, k < n → P k m → P (k + 1) ((f k).run m).2) : P n (((List.range n).forM f).run mem).2 := by
  have hlist := @run_forM _ _ _ mem _ f (List.range n) (fun pre m => P pre.length m) h ?_
  · rwa [List.length_range] at hlist
  · intro pre x post m hxs hpre
    have hlen := congrArg List.length hxs
    rw [List.length_range, List.length_append, List.length_cons] at hlen
    have hx : (List.range n)[pre.length]? = some x := by
      rw [hxs, List.getElem?_append_right (Nat.le_refl _), Nat.sub_self]
      rfl
    rw [List.getElem?_range (by omega), Option.some.injEq] at hx
    rw [← hx, List.length_append, List.length_singleton]
    exact hround pre.length m (by omega) hpre

end Run

end Prog

/-- The memory, and what is left of the program of each thread. -/
structure State (υ : κ → Type) (ι β : Type) where
  mem : ∀ c, υ c
  todo : ι → Prog υ β

variable [DecidableEq κ] [DecidableEq ι]

namespace State

/-- A thread changes a cell and has the rest of its program left. -/
def access (s : State υ ι β) (i : ι) (c : κ) (write : υ c → υ c) (next : υ c → Prog υ β) : State υ ι β where
  mem := Function.update s.mem c (write (s.mem c))
  todo := Function.update s.todo i (next (s.mem c))

/-- The threads that a thread waits for have ended. -/
def ready (after : ι → List ι) (s : State υ ι β) (i : ι) : Bool := (after i).all fun j => (s.todo j).ended

/-- One access of a thread. -/
def step (after : ι → List ι) (s : State υ ι β) (i : ι) : Option (State υ ι β) :=
  if s.ready after i then
    match s.todo i with
    | .done _ => none
    | .access c write next => some (s.access i c write next)
  else none

/-- All accesses of a thread, one behind the other. -/
def finish (s : State υ ι β) (i : ι) : State υ ι β where
  mem := ((s.todo i).run s.mem).2
  todo := Function.update s.todo i (.done ((s.todo i).run s.mem).1)

def Ended (s : State υ ι β) : Prop := ∀ i, (s.todo i).ended = true

end State

/-- Each thread comes to its own cells only. -/
def Disciplined (cells : ι → κ → Prop) (s : State υ ι β) : Prop := ∀ i, (s.todo i).Within (cells i)

/-- Of two threads that have a cell in common one waits for the other. -/
def RaceFree (after : ι → List ι) (cells : ι → κ → Prop) : Prop :=
  ∀ i j c, i ≠ j → cells i c → cells j c → i ∈ after j ∨ j ∈ after i

variable {after : ι → List ι} {cells : ι → κ → Prop} {s t u : State υ ι β} {i j : ι}

theorem step_eq_some (h : s.step after i = some t) : s.ready after i = true ∧
    ∃ c write next, s.todo i = .access c write next ∧ t = s.access i c write next := by
  unfold State.step at h
  split at h
  next hready =>
    split at h
    next => cases h
    next c write next hp => exact ⟨hready, c, write, next, hp, (Option.some.inj h).symm⟩
  next => cases h

theorem step_of_access (hready : s.ready after i = true) {c : κ} {write : υ c → υ c} {next : υ c → Prog υ β}
    (hp : s.todo i = .access c write next) : s.step after i = some (s.access i c write next) := by
  rw [State.step, if_pos hready, hp]

theorem access_todo_self (c : κ) (write : υ c → υ c) (next : υ c → Prog υ β) :
    (s.access i c write next).todo i = next (s.mem c) := Function.update_self _ _ _

theorem access_todo_of_ne (hij : j ≠ i) (c : κ) (write : υ c → υ c) (next : υ c → Prog υ β) :
    (s.access i c write next).todo j = s.todo j := Function.update_of_ne hij _ _

theorem Disciplined.step (h : Disciplined cells s) (ht : s.step after i = some t) : Disciplined cells t := by
  obtain ⟨_, c, write, next, hp, rfl⟩ := step_eq_some ht
  intro j
  have hi := h i
  rw [hp] at hi
  by_cases hj : j = i
  · subst hj
    rw [access_todo_self]
    exact hi.2 _
  · rw [access_todo_of_ne hj]
    exact h j

/-- A thread that has ended takes no step, and no step is taken for it. -/
theorem todo_of_ended (ht : s.step after i = some t) (hended : (s.todo j).ended = true) :
    j ≠ i ∧ t.todo j = s.todo j := by
  obtain ⟨_, c, write, next, hp, rfl⟩ := step_eq_some ht
  have hji : j ≠ i := by
    intro heq
    subst heq
    rw [hp] at hended
    cases hended
  exact ⟨hji, access_todo_of_ne hji c write next⟩

theorem ready_step (ht : s.step after i = some t) (hready : s.ready after j = true) :
    i ∉ after j ∧ t.ready after j = true := by
  simp only [State.ready, List.all_eq_true] at hready ⊢
  refine ⟨?_, ?_⟩
  · intro hmem
    exact (todo_of_ended ht (hready i hmem)).1 rfl
  · intro k hk
    rw [(todo_of_ended ht (hready k hk)).2]
    exact hready k hk

/-- Two threads that can both go on are at different cells. -/
theorem commutes (hrace : RaceFree after cells) :
    Runs.Commutes (State.step (υ := υ) (β := β) after) (Disciplined cells) := by
  intro s i j t u h hij ht hu
  obtain ⟨hreadyi, c, write, next, hpi, rfl⟩ := step_eq_some ht
  obtain ⟨hreadyj, d, write', next', hpj, rfl⟩ := step_eq_some hu
  obtain ⟨hij', hreadyj'⟩ := ready_step ht hreadyj
  obtain ⟨hji', hreadyi'⟩ := ready_step hu hreadyi
  have hci : cells i c := by
    have hi := h i
    rw [hpi] at hi
    exact hi.1
  have hdj : cells j d := by
    have hj := h j
    rw [hpj] at hj
    exact hj.1
  have hcd : c ≠ d := by
    intro heq
    subst heq
    exact (hrace i j c hij hci hdj).elim hij' hji'
  refine ⟨_, step_of_access hreadyj' ((access_todo_of_ne (Ne.symm hij) c write next).trans hpj), ?_⟩
  rw [step_of_access hreadyi' ((access_todo_of_ne hij d write' next').trans hpi)]
  simp only [State.access, Function.update_of_ne hcd, Function.update_of_ne (Ne.symm hcd), Function.update_comm hcd,
    Function.update_comm hij]

theorem State.Ended.stuck (h : s.Ended) : Runs.Stuck (State.step after) s := by
  intro i
  cases hstep : s.step after i with
  | none => rfl
  | some t => exact absurd rfl (todo_of_ended hstep (h i)).1

/-- A thread that waits for none goes on to its end. -/
theorem finish_run (hready : s.ready after i = true) :
    ∃ es : List ι, es.foldlM (State.step after) s = some (s.finish i) := by
  have hrun : ∀ p, s.todo i = p → ∃ es : List ι, es.foldlM (State.step after) s = some (s.finish i) := by
    intro p hp
    induction p generalizing s with
    | done b =>
      refine ⟨[], ?_⟩
      rw [State.finish, hp, Prog.run, ← hp, Function.update_eq_self]
      rfl
    | access c write next ih =>
      have hstep := step_of_access hready hp
      obtain ⟨es, hes⟩ := ih (s.mem c) (ready_step hstep hready).2 (access_todo_self c write next)
      refine ⟨i :: es, ?_⟩
      rw [List.foldlM_cons, hstep]
      refine hes.trans (congrArg some ?_)
      rw [State.finish, State.finish, access_todo_self, hp, Prog.run]
      simp only [State.access, Function.update_idem]
  exact hrun _ rfl

theorem finish_todo_self : (s.finish i).todo i = .done ((s.todo i).run s.mem).1 := Function.update_self _ _ _

theorem finish_todo_of_ended (hended : (s.todo j).ended = true) : (s.finish i).todo j = s.todo j := by
  by_cases hji : j = i
  · subst hji
    cases hp : s.todo j with
    | done b =>
      rw [finish_todo_self, hp]
      rfl
    | access c write next =>
      rw [hp] at hended
      cases hended
  · exact Function.update_of_ne hji _ _

theorem finishAll_ended (l : List ι) (h : j ∈ l ∨ (s.todo j).ended = true) :
    ((l.foldl State.finish s).todo j).ended = true := by
  induction l generalizing s with
  | nil => exact h.resolve_left List.not_mem_nil
  | cons i l ih =>
    apply ih
    by_cases hji : j = i
    · subst hji
      refine Or.inr ?_
      rw [finish_todo_self]
      rfl
    · refine h.imp (fun hmem => (List.mem_cons.mp hmem).resolve_left hji) fun hended => ?_
      rw [finish_todo_of_ended hended]
      exact hended

/-- The threads can run one after the other, in an order in which none has to wait. -/
theorem finishAll_run {l : List ι} (hl : ReadyOrder.Ordered (fun j i => j ∈ after i) l) :
    ∃ es : List ι, es.foldlM (State.step after) s = some (l.foldl State.finish s) := by
  induction l using List.reverseRecOn with
  | nil => exact ⟨[], rfl⟩
  | append_singleton l i ih =>
    obtain ⟨es, hes⟩ := ih fun pre x post heq => hl pre x (post ++ [i]) (by rw [heq, List.append_assoc, List.cons_append])
    have hready : (l.foldl State.finish s).ready after i = true := by
      rw [State.ready, List.all_eq_true]
      intro j hj
      exact finishAll_ended l (Or.inl (hl l i [] rfl j hj))
    obtain ⟨fs, hfs⟩ := finish_run hready
    refine ⟨es ++ fs, ?_⟩
    rw [List.foldlM_append, hes, List.foldl_append]
    exact hfs

/-- What a thread that has ended leaves in a cell of its own stays there. -/
theorem settled {es : List ι} (h : Disciplined cells s) (ht : es.foldlM (State.step after) s = some t)
    (hended : (s.todo i).ended = true) :
    t.todo i = s.todo i ∧ ∀ c, (∀ j, cells j c → j = i) → t.mem c = s.mem c := by
  induction es generalizing s with
  | nil =>
    cases ht
    exact ⟨rfl, fun _ _ => rfl⟩
  | cons j es ih =>
    rw [List.foldlM_cons] at ht
    obtain ⟨u, hu, ht⟩ := Option.bind_eq_some_iff.mp ht
    obtain ⟨hij, htodo⟩ := todo_of_ended hu hended
    obtain ⟨hrest, hmem⟩ := ih (h.step hu) ht (htodo ▸ hended)
    refine ⟨hrest.trans htodo, fun c hc => (hmem c hc).trans ?_⟩
    obtain ⟨_, d, write, next, hp, rfl⟩ := step_eq_some hu
    have hj := h j
    rw [hp] at hj
    refine Function.update_of_ne ?_ _ _
    intro heq
    subst heq
    exact hij (hc j hj.1).symm

section Sequential

variable {l : List ι} (hrace : RaceFree after cells) (hl : ReadyOrder.Ordered (fun j i => j ∈ after i) l)
  (hall : ∀ i, i ∉ l → (s.todo i).ended = true) (h : Disciplined cells s)
include hrace hl hall h

/-- However the threads were interleaved, they can go on to the state in which they end when they run one
after the other; and they take no more steps than some number that does not depend on the interleaving. -/
theorem interleaving_completes : ∃ n, ∀ (es : List ι) t, es.foldlM (State.step after) s = some t →
    es.length ≤ n ∧ ∃ fs : List ι, fs.foldlM (State.step after) t = some (l.foldl State.finish s) := by
  obtain ⟨gs, hgs⟩ := finishAll_run (s := s) hl
  have hended : (l.foldl State.finish s).Ended :=
    fun i => finishAll_ended l (or_iff_not_imp_left.mpr (hall i))
  refine ⟨gs.length, ?_⟩
  intro es t ht
  obtain ⟨fs, hfs, hperm⟩ := Runs.run_completes (fun _ _ _ h ht => h.step ht) (commutes hrace) h hgs hended.stuck ht
  refine ⟨?_, fs, hfs⟩
  rw [hperm.length_eq, List.length_append]
  exact Nat.le_add_right _ _

/-- Where no thread can go on, the threads have done what they do one after the other. -/
theorem interleaving_end {es : List ι} (ht : es.foldlM (State.step after) s = some t)
    (hstuck : Runs.Stuck (State.step after) t) : t = l.foldl State.finish s := by
  obtain ⟨_, hcompletes⟩ := interleaving_completes hrace hl hall h
  obtain ⟨_, fs, hfs⟩ := hcompletes es t ht
  exact (hstuck.run hfs).2.symm

/-- A thread that has ended has left in the cells of its own what it leaves when the threads run one after the
other. -/
theorem interleaving_settled {es : List ι} (ht : es.foldlM (State.step after) s = some t) {i : ι}
    (hended : (t.todo i).ended = true) : t.todo i = (l.foldl State.finish s).todo i ∧
      ∀ c, (∀ j, cells j c → j = i) → t.mem c = (l.foldl State.finish s).mem c := by
  obtain ⟨_, hcompletes⟩ := interleaving_completes hrace hl hall h
  obtain ⟨_, fs, hfs⟩ := hcompletes es t ht
  have hdisciplined : Disciplined cells t := Runs.run_preserves (fun _ _ _ h ht => h.step ht) h ht
  obtain ⟨htodo, hmem⟩ := settled hdisciplined hfs hended
  exact ⟨htodo.symm, fun c hc => (hmem c hc).symm⟩

end Sequential

end Threads
