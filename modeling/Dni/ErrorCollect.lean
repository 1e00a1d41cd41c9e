import Dni.ErrorRuns
import Dni.GraphSound

namespace Dni

variable {V : Type}

namespace ErrorState

variable {s : ErrorState V} {a : Nat}

@[simp] theorem setNode_same (n : ErrorNode) : (s.setNode a n).node a = n := Function.update_self ..

@[simp] theorem setNode_ne {b : Nat} (h : b ≠ a) (n : ErrorNode) : (s.setNode a n).node b = s.node b :=
  Function.update_of_ne h ..

@[simp] theorem setNode_collect (n : ErrorNode) : (s.setNode a n).collect = s.collect := rfl

@[simp] theorem setLoop_same (loop : NodeLoop) : ((s.setLoop a loop).node a).loop = loop := by
  rw [setLoop, setNode_same]

@[simp] theorem setLoop_ne {b : Nat} (h : b ≠ a) (loop : NodeLoop) : (s.setLoop a loop).node b = s.node b :=
  setNode_ne h _

@[simp] theorem setLoop_collect (loop : NodeLoop) : (s.setLoop a loop).collect = s.collect := rfl

@[simp] theorem setLoop_sends (loop : NodeLoop) : ((s.setLoop a loop).node a).sends = (s.node a).sends := by
  rw [setLoop, setNode_same]

theorem setLoop_setLoop (l l' : NodeLoop) : (s.setLoop a l).setLoop a l' = s.setLoop a l' := by
  simp only [setLoop, setNode, Function.update_self, Function.update_idem]

theorem setLoop_self : s.setLoop a (s.node a).loop = s := by
  simp only [setLoop, setNode, Function.update_eq_self]

theorem setCollect_collect {c c' : Nat} {pos : CollectAt} :
    (s.setCollect c pos).collect c' = if c' = c then pos else s.collect c' := Function.update_apply ..

@[simp] theorem setCollect_node {c : Nat} (pos : CollectAt) : (s.setCollect c pos).node = s.node := rfl

/-- A node sends only from the head of its loop. -/
def SendsAtHead (s : ErrorState V) (a : Nat) : Prop := (s.node a).sends ≠ [] → (s.node a).loop.pos = .head

end ErrorState

namespace ErrorGraph

open ErrorState

variable (x : ErrorGraph)

/-- What a step does to the loops of the nodes and to the calls of `GetGraphErrorList`. -/
inductive Moves (s : ErrorState V) : ErrorState V → Prop
  | node {a e t} (he : ∀ c, e ≠ .getNodeErrorList (2 * c) ∧ e ≠ .destroy (2 * c))
      (hloop : (s.node a).loop.step e = some (t.node a).loop) (hother : ∀ b, b ≠ a → t.node b = s.node b)
      (hcollect : t.collect = s.collect) (hsends : s.SendsAtHead a → t.SendsAtHead a) : Moves s t
  | send {a t} (hloop : (t.node a).loop = (s.node a).loop) (hother : ∀ b, b ≠ a → t.node b = s.node b)
      (hcollect : t.collect = s.collect) (hsends : (s.node a).sends ≠ []) : Moves s t
  | ask {a c rest errs loop} (hc : s.collect c = .visiting (a :: rest) errs)
      (hloop : (s.node a).loop.step (.getNodeErrorList (2 * c)) = some loop) : Moves s (s.setLoop a loop)
  | call {c} (hc : s.collect c = .none) : Moves s (s.setCollect c (.visiting x.sortedNodes []))
  | take {a c rest errs nodeErrs} (hc : s.collect c = .visiting (a :: rest) errs)
      (hnode : (s.node a).loop.calls (2 * c) = .getNodeErrorList (.returned nodeErrs)) :
      Moves s (s.setCollect c (.visiting rest (errs ++ nodeErrs)))
  | finish {c errs} (hc : s.collect c = .visiting [] errs) : Moves s (s.setCollect c (.returned errs))

variable {x} {s t : ErrorState V}

theorem send_frame {a : Nat} {op : SendOp} {ops : List SendOp} (ht : s.send a ops op = some t) :
    (t.node a).loop = (s.node a).loop ∧ (∀ b, b ≠ a → t.node b = s.node b) ∧ t.collect = s.collect := by
  cases op with
  | output id =>
    obtain ⟨data, _, rfl⟩ := Option.map_eq_some_iff.mp ht
    exact ⟨by rw [setNode_same], fun b hb => setNode_ne hb _, rfl⟩
  | clone =>
    obtain ⟨data, _, ht⟩ := Option.bind_eq_some_iff.mp ht
    obtain ⟨d, _, rfl⟩ := Option.map_eq_some_iff.mp ht
    refine ⟨?_, fun b hb => setNode_ne hb _, rfl⟩
    change ((s.setNode a _).node a).loop = _
    rw [setNode_same]
  | send ch =>
    obtain ⟨data, _, rfl⟩ := Option.map_eq_some_iff.mp ht
    exact ⟨by rw [setNode_same], fun b hb => setNode_ne hb _, rfl⟩

theorem process_frame {a : Nat} {sends : List SendOp} {loop : NodeLoop} {r : TaskRun V}
    (ht : s.process sends a loop r = some t) :
    (t.node a).loop = loop ∧ (∀ b, b ≠ a → t.node b = s.node b) ∧ t.collect = s.collect := by
  unfold ErrorState.process at ht
  simp only at ht
  split at ht
  next =>
    split at ht
    all_goals
      cases ht
      refine ⟨?_, fun b hb => setNode_ne hb _, rfl⟩
      change ((s.setNode a _).node a).loop = _
      rw [setNode_same]
  next => cases ht

theorem execute_moves {a : Nat} {oks : List Bool} {r : TaskRun V} (ht : x.execute s a oks r = some t) :
    x.Moves s t := by
  unfold execute at ht
  split at ht
  next op ops hsends =>
    obtain ⟨hloop, hother, hcollect⟩ := send_frame ht
    exact .send hloop hother hcollect (by simp [hsends])
  next hsends =>
    obtain ⟨loop, hloop, ht⟩ := Option.bind_eq_some_iff.mp ht
    have hevent : ∀ c, (NodeEvent.execute oks r.err) ≠ .getNodeErrorList (2 * c) ∧
        (NodeEvent.execute oks r.err) ≠ .destroy (2 * c) := by simp
    split at ht
    next hp =>
      obtain ⟨hloop', hother, hcollect⟩ := process_frame ht
      refine .node hevent (hloop.trans (congrArg some hloop'.symm)) hother hcollect fun _ _ => ?_
      rw [hloop']
      simp only [NodeLoop.execute, hp] at hloop
      split at hloop <;> (cases hloop; rfl)
    next =>
      cases ht
      refine .node hevent (by rw [setLoop_same]; exact hloop) (fun b hb => setLoop_ne hb _) rfl fun _ hne => ?_
      rw [setLoop_sends] at hne
      exact absurd hsends hne

/-- A call moves on and `Execute` stays where it is. -/
theorem call_pos {l l' : NodeLoop} {c : Nat} (h : l.step (.next c) = some l' ∨ l.step (.destroy c) = some l' ∨
    l.step (.getNodeErrorList c) = some l') : l'.pos = l.pos := by
  obtain h | h | h := h
  all_goals
    cases NodeLoop.step_moves h
    all_goals rfl

theorem setLoop_sendsAtHead {a : Nat} {loop : NodeLoop} (hpos : loop.pos = (s.node a).loop.pos)
    (h : s.SendsAtHead a) : (s.setLoop a loop).SendsAtHead a := by
  intro hne
  rw [setLoop_sends] at hne
  rw [setLoop_same, hpos]
  exact h hne

theorem step_moves {e : ErrorEvent V} (ht : x.step s e = some t) : x.Moves s t := by
  cases e with
  | execute a oks r =>
    obtain ⟨_, ht⟩ := Option.ite_none_right_eq_some.mp ht
    exact execute_moves ht
  | next a c =>
    obtain ⟨_, ht⟩ := Option.ite_none_right_eq_some.mp ht
    obtain ⟨loop, hloop, rfl⟩ := Option.map_eq_some_iff.mp ht
    exact .node (e := .next c) (by simp) (by rw [setLoop_same]; exact hloop) (fun b hb => setLoop_ne hb _) rfl
      (setLoop_sendsAtHead (call_pos (.inl hloop)))
  | destroy a c =>
    obtain ⟨_, ht⟩ := Option.ite_none_right_eq_some.mp ht
    obtain ⟨loop, hloop, rfl⟩ := Option.map_eq_some_iff.mp ht
    refine .node (e := .destroy (2 * c + 1)) (fun c' => ⟨by simp, ?_⟩) (by rw [setLoop_same]; exact hloop)
      (fun b hb => setLoop_ne hb _) rfl (setLoop_sendsAtHead (call_pos (.inr (.inl hloop))))
    rw [ne_eq, NodeEvent.destroy.injEq]
    omega
  | collect c =>
    simp only [step, collect] at ht
    split at ht
    next hc =>
      cases ht
      exact .call hc
    next errs hc =>
      cases ht
      exact .finish hc
    next a rest errs hc =>
      split at ht
      next =>
        obtain ⟨loop, hloop, rfl⟩ := Option.map_eq_some_iff.mp ht
        exact .ask hc hloop
      next nodeErrs hnode =>
        cases ht
        exact .take hc hnode
      next => cases ht
    next => cases ht

/-- What holds in any run: who holds the mutexes, and that a call of `GetGraphErrorList` has found nothing so far. -/
structure Collecting (x : ErrorGraph) (s : ErrorState V) : Prop where
  held : ∀ a, (s.node a).loop.Held
  head : ∀ a, s.SendsAtHead a
  kind : ∀ a c pos, (s.node a).loop.calls (2 * c) ≠ .destroy pos
  fresh : ∀ c, s.collect c = .none → ∀ a, (s.node a).loop.calls (2 * c) = .none
  visiting : ∀ c rest errs, s.collect c = .visiting rest errs → errs = [] ∧ rest.Nodup ∧
    rest ⊆ x.sortedNodes ∧ ∀ a ∈ rest.tail, (s.node a).loop.calls (2 * c) = .none
  returned : ∀ c errs, s.collect c = .returned errs → errs = []

theorem init_collecting : x.Collecting (x.init : ErrorState V) where
  held a := NodeLoop.init_held a
  head a h := absurd rfl h
  kind a c pos := by simp [init, NodeLoop.init]
  fresh c _ a := rfl
  visiting c rest errs h := nomatch h
  returned c errs h := nomatch h

/-- A node moves on; it is asked for its errors only by the call that visits it. -/
theorem Collecting.move (h : x.Collecting s) {a : Nat} {e : NodeEvent}
    (hloop : (s.node a).loop.step e = some (t.node a).loop) (hother : ∀ b, b ≠ a → t.node b = s.node b)
    (hcollect : t.collect = s.collect) (hhead : t.SendsAtHead a) (he : ∀ c, e ≠ .destroy (2 * c))
    (hask : ∀ c, e = .getNodeErrorList (2 * c) → ∃ rest errs, s.collect c = .visiting (a :: rest) errs) :
    x.Collecting t := by
  have hsplit : ∀ b, b = a ∨ t.node b = s.node b := fun b => (em (b = a)).imp_right (hother b)
  refine ⟨fun b => ?_, fun b => ?_, fun b c pos => ?_, fun c hc b => ?_, fun c rest errs hc => ?_, ?_⟩
  · obtain heq | hb := hsplit b
    · subst heq
      exact (h.held b).step hloop
    · exact hb ▸ h.held b
  · obtain heq | hb := hsplit b
    · exact heq ▸ hhead
    · have hold := h.head b
      rwa [SendsAtHead, ← hb] at hold
  · obtain heq | hb := hsplit b
    · subst heq
      exact NodeLoop.calls_ne_destroy hloop (he c) (h.kind b c) pos
    · exact hb ▸ h.kind b c pos
  · rw [hcollect] at hc
    obtain heq | hb := hsplit b
    · subst heq
      refine NodeLoop.calls_none hloop ⟨fun heq => ?_, he c⟩ (h.fresh c hc b)
      obtain ⟨rest, errs, hvisit⟩ := hask c heq
      rw [hc] at hvisit
      cases hvisit
    · exact hb ▸ h.fresh c hc b
  · rw [hcollect] at hc
    obtain ⟨herrs, hnd, hsub, hnone⟩ := h.visiting c rest errs hc
    refine ⟨herrs, hnd, hsub, fun b hin => ?_⟩
    obtain heq | hb := hsplit b
    · subst heq
      refine NodeLoop.calls_none hloop ⟨fun heq => ?_, he c⟩ (hnone b hin)
      obtain ⟨rest', errs', hvisit⟩ := hask c heq
      rw [hc] at hvisit
      cases hvisit
      exact (List.nodup_cons.mp hnd).1 hin
    · exact hb ▸ hnone b hin
  · rw [hcollect]
    exact h.returned

/-- A call of `GetGraphErrorList` moves on, and the nodes stay as they are. -/
theorem Collecting.moveCall (h : x.Collecting s) {c : Nat} {pos : CollectAt} (hpos : pos ≠ .none)
    (hvisiting : ∀ rest errs, pos = .visiting rest errs → errs = [] ∧ rest.Nodup ∧ rest ⊆ x.sortedNodes ∧
      ∀ a ∈ rest.tail, (s.node a).loop.calls (2 * c) = .none)
    (hreturned : ∀ errs, pos = .returned errs → errs = []) : x.Collecting (s.setCollect c pos) := by
  refine ⟨h.held, h.head, h.kind, fun c' hc' => ?_, fun c' rest errs hc' => ?_, fun c' errs hc' => ?_⟩
  · rw [setCollect_collect] at hc'
    split at hc'
    next => exact absurd hc' hpos
    next => exact h.fresh c' hc'
  · rw [setCollect_collect] at hc'
    split at hc'
    next heq => exact heq ▸ hvisiting rest errs hc'
    next => exact h.visiting c' rest errs hc'
  · rw [setCollect_collect] at hc'
    split at hc'
    next => exact hreturned errs hc'
    next => exact h.returned c' errs hc'

theorem Collecting.step (hnd : x.sortedNodes.Nodup) (h : x.Collecting s) {e : ErrorEvent V}
    (ht : x.step s e = some t) : x.Collecting t := by
  cases step_moves ht with
  | @node a e t he hloop hother hcollect hsends =>
    exact h.move hloop hother hcollect (hsends (h.head a)) (fun c => (he c).2) fun c heq => absurd heq (he c).1
  | @send a t hloop hother hcollect hsends =>
    have hloops : ∀ b, (t.node b).loop = (s.node b).loop := by
      intro b
      by_cases hb : b = a
      · rw [hb, hloop]
      · rw [hother b hb]
    refine ⟨fun b => hloops b ▸ h.held b, fun b hne => ?_, fun b => hloops b ▸ h.kind b, fun c hc b => ?_,
      fun c rest errs hc => ?_, hcollect ▸ h.returned⟩
    · by_cases hb : b = a
      · rw [hb, hloop]
        exact h.head a hsends
      · rw [hother b hb] at hne ⊢
        exact h.head b hne
    · rw [hloops b]
      exact h.fresh c (hcollect ▸ hc) b
    · simp only [hloops]
      exact h.visiting c rest errs (hcollect ▸ hc)
  | @ask a c rest errs loop hc hloop =>
    refine h.move (t := s.setLoop a loop) (by rw [setLoop_same]; exact hloop) (fun b hb => setLoop_ne hb _) rfl
      (setLoop_sendsAtHead (call_pos (.inr (.inr hloop))) (h.head a)) (by simp) fun c' heq => ?_
    rw [NodeEvent.getNodeErrorList.injEq] at heq
    obtain rfl : c = c' := by omega
    exact ⟨rest, errs, hc⟩
  | @call c hc =>
    refine h.moveCall (by simp) (fun rest errs heq => ?_) (by simp)
    cases heq
    exact ⟨rfl, hnd, List.Subset.refl _, fun a _ => h.fresh c hc a⟩
  | @take a c rest errs nodeErrs hc hnode =>
    obtain ⟨herrs, hnodup, hsub, hnone⟩ := h.visiting c _ errs hc
    refine h.moveCall (by simp) (fun rest' errs' heq => ?_) (by simp)
    cases heq
    rw [herrs, (h.held a).empty _ _ hnode]
    exact ⟨rfl, (List.nodup_cons.mp hnodup).2, fun b hb => hsub (List.mem_cons_of_mem _ hb),
      fun b hb => hnone b (List.mem_of_mem_tail hb)⟩
  | @finish c errs hc =>
    refine h.moveCall (by simp) (by simp) fun errs' heq => ?_
    cases heq
    exact (h.visiting c [] errs hc).1

end ErrorGraph

end Dni
