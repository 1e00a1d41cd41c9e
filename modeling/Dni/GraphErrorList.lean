import Dni.ErrorAnswers
import Dni.ErrorOutputs

namespace Dni

open GoMap Runs

variable {V : Type}

namespace ErrorGraph

variable {x : ErrorGraph} {s t : ErrorState V}

/-- A call that has been made stays made. -/
theorem collect_ne_none {c : Nat} (hc : s.collect c ≠ .none) {e : ErrorEvent V} (ht : x.step s e = some t) :
    t.collect c ≠ .none := by
  have hset : ∀ {c' : Nat} {pos : CollectAt}, pos ≠ .none → (s.setCollect c' pos).collect c ≠ .none := by
    intro c' pos hpos
    rw [ErrorState.setCollect_collect]
    split
    next => exact hpos
    next => exact hc
  cases step_moves ht with
  | node _ _ _ hcollect => exact hcollect ▸ hc
  | send _ _ hcollect => exact hcollect ▸ hc
  | ask => exact hc
  | call => exact hset nofun
  | take => exact hset nofun
  | finish => exact hset nofun

end ErrorGraph

/-- In every run of an accepted graph, nothing that a node sends after a failed Process holds data of that round or of
an earlier one, and a call of `GetGraphErrorList` can return, and returns all errors recorded so far, exactly while none
had been recorded when it was made and no node has kept a mutex that it needs. -/
theorem GraphUnit.error_collection (gu : GraphUnit) (ord : EdgeOrders) (lord : Order String (List Nat))
    (cord : Producer → Order String (List Consumer)) {nodeEdge : NodeEdges} {sortedNodes : List Nat}
    (h : gu.getNodeEdge ord = some (.ok (nodeEdge, sortedNodes)))
    (x : ErrorGraph) (hx : x = gu.errorGraph (gu.wiring lord nodeEdge) cord sortedNodes)
    {es : List (ErrorEvent V)} {s : ErrorState V} (hs : es.foldlM x.step x.init = some s) :
    s.SendsFresh ∧ ∀ (c : Nat) (es' : List (ErrorEvent V)) (t : ErrorState V), s.collect c = .none →
      (.collect c :: es').foldlM x.step s = some t →
      (x.Collects s t c ↔ (∀ a < x.size, s.errors a = []) ∧ ∀ a, t.Waits c a → ¬ (t.node a).loop.Stuck) := by
  have hl := gu.accepted_linked ord lord h
  have hsorted : x.sortedNodes = sortedNodes := hx ▸ rfl
  have hsize : x.size = gu.nodes.length := hx ▸ rfl
  have hnd : x.sortedNodes.Nodup := hsorted ▸ hl.perm.nodup_iff.mpr List.nodup_range
  have hlt : ∀ a ∈ x.sortedNodes, a < x.size := by
    intro a ha
    rw [hsorted, hl.perm.mem_iff, List.mem_range, streams, List.length_map] at ha
    rwa [hsize]
  have hslots : ∀ a, x.size ≤ a → x.slots a = 0 := by
    intro a ha
    rw [hsize] at ha
    subst hx
    change (gu.outputNames (.node a)).length = 0
    rw [outputNames, List.getElem?_eq_none ha]
    rfl
  have hcollecting : x.Collecting s := ErrorGraph.init_collecting.run hnd hs
  refine ⟨(run_preserves (fun _ _ _ hu ht => ErrorGraph.fresh_step hu ht) (ErrorGraph.init_fresh hslots) hs).sendsFresh,
    fun c es' t hc ht => ?_⟩
  refine (hcollecting.run hnd ht).collects_iff hnd hlt ?_
  obtain ⟨u, hu, ht⟩ := Option.bind_eq_some_iff.mp (List.foldlM_cons (m := Option) ▸ ht)
  refine run_preserves (fun _ _ _ hne hstep => ErrorGraph.collect_ne_none hne hstep) ?_ ht
  simp only [ErrorGraph.step, ErrorGraph.collect, hc] at hu
  cases hu
  simp [ErrorState.setCollect_collect]

def oneNodeErrors : ErrorGraph := oneNode.errorGraph (oneNode.wiring .stored oneNodeEdge) (fun _ => .stored) [0]

/-- One round, in which Process fails after it has written its output. -/
def failedRound : List (ErrorEvent Nat) :=
  let idle : TaskRun Nat := ⟨0, [], [], none⟩
  [.execute 0 [] idle, .execute 0 [true] idle, .execute 0 [] idle, .execute 0 [] idle,
    .execute 0 [] ⟨0, [(0, 7)], [0], some "no data"⟩, .execute 0 [] idle, .execute 0 [] idle]

/-- A call of `GetGraphErrorList` that the one node answers. -/
def collectErrors : List (ErrorEvent Nat) :=
  [.collect 0, .collect 0, .next 0 0, .next 0 0, .next 0 0, .collect 0, .collect 0]

/-- The nodes whose errors a call has not taken yet. -/
def CollectAt.rest : CollectAt → List Nat
  | .visiting rest _ => rest
  | _ => []

def joinErrors : ErrorGraph := joinGraph.errorGraph (joinGraph.wiring .stored joinEdge) (fun _ => .stored) [0, 1]

/-- One round of both nodes, in which Process of the second fails after it has written its output. -/
def failedJoin : List (ErrorEvent Nat) :=
  let idle : TaskRun Nat := ⟨0, [], [], none⟩
  [.execute 0 [] idle, .execute 0 [true] idle, .execute 0 [] idle, .execute 0 [] idle, .execute 0 [] ⟨0, [(0, 5)], [0], none⟩,
    .execute 1 [] idle, .execute 1 [true, true] idle, .execute 0 [] idle, .execute 0 [] idle, .execute 1 [] idle,
    .execute 1 [] idle, .execute 1 [] ⟨0, [(1, 7)], [1], some "no data"⟩, .execute 1 [] idle, .execute 1 [] idle]

theorem GraphUnit.error_collection_join :
    (∃ s, failedJoin.foldlM joinErrors.step joinErrors.init = some s ∧
      (s.node 0).sent.map Message.failed = [false] ∧ (s.node 1).sent.map Message.failed = [true] ∧ s.SendsFresh) ∧
    ∃ t, (.collect 0 :: failedJoin).foldlM joinErrors.step joinErrors.init = some t ∧
      joinErrors.Collects joinErrors.init t 0 := by
  have h := @GraphUnit.error_collection Nat joinGraph ⟨.stored, fun _ => .stored⟩ .stored (fun _ => .stored) joinEdge
    [0, 1] rfl joinErrors rfl
  have hsent : (failedJoin.foldlM joinErrors.step joinErrors.init).map (fun s =>
      ((s.node 0).sent.map Message.failed, (s.node 1).sent.map Message.failed)) = some ([false], [true]) := by
    decide +kernel
  have hasked : ((.collect 0 :: failedJoin).foldlM joinErrors.step joinErrors.init).map (fun t =>
      ((t.node 0).loop.mutex.isNone, (t.node 1).loop.mutex.isNone, (t.collect 0).rest)) = some (true, true, [0, 1]) := by
    decide +kernel
  obtain ⟨s, hs, hsent⟩ := Option.map_eq_some_iff.mp hsent
  obtain ⟨t, ht, hfree⟩ := Option.map_eq_some_iff.mp hasked
  obtain ⟨hfirst, hsecond⟩ := Prod.mk.inj hsent
  obtain ⟨hfree₀, hfree₁, hrest⟩ := And.imp_right Prod.mk.inj (Prod.mk.inj hfree)
  refine ⟨⟨s, hs, hfirst, hsecond, (h hs).1⟩, t, ht, ((@h [] _ rfl).2 0 failedJoin t rfl ht).mpr ⟨fun a _ => rfl, ?_⟩⟩
  intro a ⟨⟨rest, errs, hvisiting, ha⟩, _⟩ hstuck
  rw [hvisiting] at hrest
  change rest = [0, 1] at hrest
  rw [hrest] at ha
  obtain rfl | rfl : a = 0 ∨ a = 1 := by simpa using ha
  · simp [hstuck.1] at hfree₀
  · simp [hstuck.1] at hfree₁

/-- The error that the node has recorded is not in the list. -/
theorem GraphUnit.error_lost : ∃ s t, failedRound.foldlM oneNodeErrors.step oneNodeErrors.init = some s ∧
    s.errors 0 = ["task process error:" ++ "no data"] ∧ collectErrors.foldlM oneNodeErrors.step s = some t ∧
    t.collect 0 = .returned [] ∧ ¬ oneNodeErrors.Answers s t [] := by
  obtain ⟨s, hs, herr⟩ : ∃ s, failedRound.foldlM oneNodeErrors.step oneNodeErrors.init = some s ∧
      s.errors 0 = ["task process error:" ++ "no data"] := ⟨_, rfl, rfl⟩
  obtain ⟨t, ht, hreturned⟩ : ∃ t,
      (failedRound ++ collectErrors).foldlM oneNodeErrors.step oneNodeErrors.init = some t ∧ t.collect 0 = .returned [] := ⟨_, rfl, rfl⟩
  rw [List.foldlM_append, hs] at ht
  refine ⟨s, t, hs, herr, ht, hreturned, ?_⟩
  intro ⟨order, nodeErrs, hperm, herrs, hbetween⟩
  have hmem : 0 ∈ order := hperm.mem_iff.mpr (List.mem_range.mpr Nat.one_pos)
  have hnone := List.flatMap_eq_nil_iff.mp herrs.symm 0 hmem
  have hpre := (hbetween 0 Nat.one_pos).1
  rw [hnone, herr] at hpre
  cases List.prefix_nil.mp hpre

end Dni
