import Dni.ErrorCollect
import Dni.Lib.Runs

namespace Dni

open Runs

variable {V : Type}

/-- A datum holds nothing that was written up to a time. -/
def WrittenAfter (heap : List (Option (Nat × V))) (data time : Nat) : Prop :=
  ∀ t v, heap[data]? = some (some (t, v)) → time < t

/-- Data are added, and those that there are are written at a time or later only. -/
structure Grows (heap heap' : List (Option (Nat × V))) (time : Nat) : Prop where
  length : heap.length ≤ heap'.length
  written : ∀ p < heap.length, ∀ t v, heap'[p]? = some (some (t, v)) → heap[p]? = some (some (t, v)) ∨ time ≤ t

/-- What holds of the outputs of a node, and of what it has sent after failed calls of `Process`. -/
structure ErrorNode.Fresh (n : ErrorNode) (heap : List (Option (Nat × V))) (time : Nat) : Prop where
  last : n.sends ≠ [] → n.time < time
  values : ∀ p ∈ n.values, p < heap.length
  output : ∀ p, n.output = some p → p < heap.length
  fresh : n.sends ≠ [] → n.failed = true → ∀ p, p ∈ n.values ∨ n.output = some p → WrittenAfter heap p n.time
  sent : ∀ m ∈ n.sent, m.data < heap.length ∧ m.time < time
  later : ∀ m ∈ n.sent, m.failed = true → WrittenAfter heap m.data m.time

/-- What a node has sent after a failed `Process` holds, whenever it is read, only what was written later than that. -/
def ErrorState.SendsFresh (s : ErrorState V) : Prop :=
  ∀ a, ∀ m ∈ (s.node a).sent, m.failed = true → WrittenAfter s.heap m.data m.time

section Heap

variable {heap heap' : List (Option (Nat × V))} {time : Nat}

theorem length_writeAll (time : Nat) (heap : List (Option (Nat × V))) (writes : List (Nat × V)) :
    (writeAll time heap writes).length = heap.length := by
  unfold writeAll
  induction writes generalizing heap with
  | nil => rfl
  | cons e writes ih => rw [List.foldl_cons, ih, List.length_set]

theorem getElem?_writeAll {writes : List (Nat × V)} {p t : Nat} {v : V}
    (h : (writeAll time heap writes)[p]? = some (some (t, v))) : heap[p]? = some (some (t, v)) ∨ t = time := by
  unfold writeAll at h
  induction writes generalizing heap with
  | nil => exact .inl h
  | cons e writes ih =>
    obtain hset | htime := ih h
    · rw [List.getElem?_set] at hset
      split at hset
      next =>
        split at hset
        next =>
          cases hset
          exact .inr rfl
        next => cases hset
      next => exact .inl hset
    · exact .inr htime

theorem getElem?_append_none {n p t : Nat} {v : V} (h : (heap ++ List.replicate n none)[p]? = some (some (t, v))) :
    heap[p]? = some (some (t, v)) := by
  rw [List.getElem?_append] at h
  split at h
  next => exact h
  next =>
    rw [List.getElem?_replicate] at h
    split at h <;> cases h

theorem grows_refl (heap : List (Option (Nat × V))) (time : Nat) : Grows heap heap time :=
  ⟨le_rfl, fun _ _ _ _ h => .inl h⟩

theorem grows_append (heap news : List (Option (Nat × V))) (time : Nat) : Grows heap (heap ++ news) time where
  length := by rw [List.length_append]; omega
  written p hp t v h := by
    rw [List.getElem?_append_left hp] at h
    exact .inl h

theorem grows_writeAll (n : Nat) (writes : List (Nat × V)) :
    Grows heap (writeAll time (heap ++ List.replicate n none) writes) time where
  length := by
    rw [length_writeAll, List.length_append]
    omega
  written p hp t v h := by
    obtain hold | htime := getElem?_writeAll h
    · exact .inl (getElem?_append_none hold)
    · exact .inr htime.ge

theorem Grows.trans {heap'' : List (Option (Nat × V))} (h : Grows heap heap' time) (h' : Grows heap' heap'' time) :
    Grows heap heap'' time where
  length := h.length.trans h'.length
  written p hp t v ht := by
    obtain hold | htime := h'.written p (Nat.lt_of_lt_of_le hp h.length) t v ht
    · exact h.written p hp t v hold
    · exact .inr htime

theorem WrittenAfter.grow {p t : Nat} (h : WrittenAfter heap p t) (hg : Grows heap heap' time) (hp : p < heap.length)
    (ht : t < time) : WrittenAfter heap' p t := by
  intro t' v hv
  obtain hold | htime := hg.written p hp t' v hv
  · exact h t' v hold
  · omega

theorem ErrorNode.Fresh.grow {n : ErrorNode} (h : n.Fresh heap time) (hg : Grows heap heap' time) {time' : Nat}
    (ht : time ≤ time') : n.Fresh heap' time' where
  last hne := Nat.lt_of_lt_of_le (h.last hne) ht
  values p hp := Nat.lt_of_lt_of_le (h.values p hp) hg.length
  output p hp := Nat.lt_of_lt_of_le (h.output p hp) hg.length
  fresh hne hf p hp := (h.fresh hne hf p hp).grow hg (hp.elim (h.values p) (h.output p)) (h.last hne)
  sent m hm := ⟨Nat.lt_of_lt_of_le (h.sent m hm).1 hg.length, Nat.lt_of_lt_of_le (h.sent m hm).2 ht⟩
  later m hm hf := (h.later m hm hf).grow hg (h.sent m hm).1 (h.sent m hm).2

end Heap

namespace ErrorState

variable {s t : ErrorState V}

/-- What holds of the outputs of all nodes in any run. -/
def Fresh (s : ErrorState V) : Prop := ∀ a, (s.node a).Fresh s.heap s.time

theorem Fresh.sendsFresh (h : s.Fresh) : s.SendsFresh := fun a => (h a).later

theorem Fresh.setLoop (h : s.Fresh) (a : Nat) (loop : NodeLoop) : (s.setLoop a loop).Fresh := by
  intro b
  by_cases hb : b = a
  · subst hb
    rw [ErrorState.setLoop, setNode_same]
    exact ⟨(h b).last, (h b).values, (h b).output, (h b).fresh, (h b).sent, (h b).later⟩
  · rw [setLoop_ne hb]
    exact h b

/-- A node and the heap change; for the other nodes the heap only grows. -/
theorem Fresh.change (h : s.Fresh) {a : Nat} {n : ErrorNode} {heap : List (Option (Nat × V))} {time : Nat}
    (hg : Grows s.heap heap s.time) (htime : s.time ≤ time) (hn : n.Fresh heap time) :
    Fresh { s.setNode a n with heap := heap, time := time } := by
  intro b
  change ((s.setNode a n).node b).Fresh heap time
  by_cases hb : b = a
  · rw [hb, setNode_same]
    exact hn
  · rw [setNode_ne hb]
    exact (h b).grow hg htime

theorem Fresh.send (h : s.Fresh) {a : Nat} {op : SendOp} {ops : List SendOp} (hsends : (s.node a).sends = op :: ops)
    (ht : s.send a ops op = some t) : t.Fresh := by
  have hne : (s.node a).sends ≠ [] := by simp [hsends]
  have ha := h a
  cases op with
  | output id =>
    obtain ⟨data, hdata, rfl⟩ := Option.map_eq_some_iff.mp ht
    have hmem := List.mem_of_getElem? hdata
    refine h.change (grows_refl s.heap s.time) le_rfl
      ⟨fun _ => ha.last hne, ha.values, fun p hp => ?_, fun _ hf p hp => ?_, ha.sent, ha.later⟩
    · cases hp
      exact ha.values _ hmem
    · obtain hp | hp := hp
      · exact ha.fresh hne hf p (.inl hp)
      · cases hp
        exact ha.fresh hne hf _ (.inl hmem)
  | clone =>
    obtain ⟨data, hdata, ht⟩ := Option.bind_eq_some_iff.mp ht
    obtain ⟨d, hd, rfl⟩ := Option.map_eq_some_iff.mp ht
    have hg := grows_append s.heap [d] s.time
    have hgrown := ha.grow hg le_rfl
    refine h.change hg le_rfl
      ⟨fun _ => ha.last hne, hgrown.values, fun p hp => ?_, fun _ hf p hp => ?_, hgrown.sent, hgrown.later⟩
    · cases hp
      simp
    · obtain hp | hp := hp
      · exact hgrown.fresh hne hf p (.inl hp)
      · cases hp
        intro t v hv
        rw [List.getElem?_concat_length, ← hd] at hv
        exact ha.fresh hne hf data (.inr hdata) t v hv
  | send ch =>
    obtain ⟨data, hdata, rfl⟩ := Option.map_eq_some_iff.mp ht
    refine h.change (grows_refl s.heap s.time) le_rfl
      ⟨fun _ => ha.last hne, ha.values, ha.output, fun _ => ha.fresh hne, fun m hm => ?_, fun m hm hf => ?_⟩
    · obtain hm | hm := List.mem_append.mp hm
      · exact ha.sent m hm
      · rw [List.mem_singleton.mp hm]
        exact ⟨ha.output data hdata, ha.last hne⟩
    · obtain hm | hm := List.mem_append.mp hm
      · exact ha.later m hm hf
      · rw [List.mem_singleton.mp hm] at hf ⊢
        exact ha.fresh hne hf data (.inr hdata)

theorem Fresh.process (h : s.Fresh) {sends : List SendOp} {a : Nat} {loop : NodeLoop} {r : TaskRun V}
    (ht : s.process sends a loop r = some t) : t.Fresh := by
  unfold ErrorState.process at ht
  simp only at ht
  have hg : Grows s.heap (writeAll s.time (s.heap ++ List.replicate r.news none) r.writes) s.time :=
    grows_writeAll r.news r.writes
  generalize writeAll s.time (s.heap ++ List.replicate r.news none) r.writes = heap at ht hg
  split at ht
  next hvalues =>
    have htime : s.time ≤ s.time + 1 := Nat.le_succ _
    split at ht
    next =>
      cases ht
      have hgrown := (h a).grow hg htime
      exact h.change hg htime
        ⟨fun _ => Nat.lt_succ_self _, hvalues.2, nofun, nofun, hgrown.sent, hgrown.later⟩
    next =>
      cases ht
      have hg' := hg.trans (grows_append heap (List.replicate (s.node a).values.length none) s.time)
      have hgrown := (h a).grow hg' htime
      refine h.change hg' htime
        ⟨fun _ => Nat.lt_succ_self _, fun p hp => ?_, nofun, fun _ _ p hp => ?_, hgrown.sent, hgrown.later⟩
      · rw [List.length_append, List.length_replicate]
        exact (List.mem_range'_1.mp hp).2
      · -- the slots were reset after all writes
        obtain hp | hp := hp
        · intro t v hv
          have hold := (List.getElem?_eq_some_iff.mp (getElem?_append_none hv)).1
          have hnew := (List.mem_range'_1.mp hp).1
          omega
        · cases hp
  next => cases ht

end ErrorState

namespace ErrorGraph

variable {x : ErrorGraph} {s t : ErrorState V}

theorem init_fresh (hsize : ∀ a, x.size ≤ a → x.slots a = 0) : (x.init : ErrorState V).Fresh := by
  refine fun a => ⟨fun hne => absurd rfl hne, fun p hp => ?_, nofun, fun hne => absurd rfl hne, nofun, nofun⟩
  change p < (List.replicate ((List.range x.size).map x.slots).sum none).length
  rw [List.length_replicate]
  obtain ⟨hle, hlt⟩ := List.mem_range'_1.mp hp
  by_cases ha : a < x.size
  · exact Nat.lt_of_lt_of_le hlt (x.slots_le ha)
  · rw [hsize a (Nat.not_lt.mp ha)] at hlt
    omega

theorem execute_fresh (h : s.Fresh) {a : Nat} {oks : List Bool} {r : TaskRun V} (ht : x.execute s a oks r = some t) :
    t.Fresh := by
  unfold execute at ht
  split at ht
  next op ops hsends => exact h.send hsends ht
  next =>
    obtain ⟨loop, _, ht⟩ := Option.bind_eq_some_iff.mp ht
    split at ht
    next => exact h.process ht
    next =>
      cases ht
      exact h.setLoop a loop

theorem fresh_step (h : s.Fresh) {e : ErrorEvent V} (ht : x.step s e = some t) : t.Fresh := by
  cases e with
  | execute a oks r =>
    obtain ⟨_, ht⟩ := Option.ite_none_right_eq_some.mp ht
    exact execute_fresh h ht
  | next a c =>
    obtain ⟨_, ht⟩ := Option.ite_none_right_eq_some.mp ht
    obtain ⟨loop, _, rfl⟩ := Option.map_eq_some_iff.mp ht
    exact h.setLoop a loop
  | destroy a c =>
    obtain ⟨_, ht⟩ := Option.ite_none_right_eq_some.mp ht
    obtain ⟨loop, _, rfl⟩ := Option.map_eq_some_iff.mp ht
    exact h.setLoop a loop
  | collect c =>
    simp only [step, collect] at ht
    split at ht
    next => cases ht; exact h
    next => cases ht; exact h
    next a rest errs hc =>
      split at ht
      next =>
        obtain ⟨loop, _, rfl⟩ := Option.map_eq_some_iff.mp ht
        exact h.setLoop a loop
      next => cases ht; exact h
      next => cases ht
    next => cases ht

end ErrorGraph

end Dni
