import Dni.DmsGraph
import Dni.ServiceLoop

namespace Dni.Dms

open Runs

section Loop

variable {P S F : Type} [FloatArith F] [LE F] [DecidableLE F] [LT F] [DecidableLT F]

/-- What a pass of the graph makes of the data of a slot. -/
def passOf (g : Gopacket P S) (isUsable : String → Bool) (ch : DmsChoices S F) (o : DmsOptions F) (input : DmsInput P F)
    (sortedNodes : List Nat) : Producer → Nat → DmsDatum P F :=
  dmsGraph.evalRound (dmsTask g isUsable ch o) .nil sortedNodes fun id =>
    (dmsGraph.graphInputStream.name[id]?).elim .nil input.data

/-- The service whose graphs are all built from the configuration; `input k` are the data of slot `k`. -/
def dmsService (g : Gopacket P S) (isUsable : String → Bool) (ch : Nat → DmsChoices S F) (o : DmsOptions F)
    (input : Nat → DmsInput P F) (gNum slots : Nat) (flows : Nat → FlowGraph) : Service (DmsDatum P F) where
  gNum := gNum
  graphs i := dmsFlow g isUsable (fun k => ch (i + gNum * k)) o (fun k => input (i + gNum * k)) slots (flows i)
  slots := slots

/-- What the service has read of a graph output for a slot. -/
def resultOf (x : Service (DmsDatum P F)) (s : ServiceState (DmsDatum P F)) (name : String) (k : Nat) :
    Option (DmsDatum P F) :=
  (readsOf (s.graphs (k % x.gNum)) name)[k / x.gNum]?

theorem dmsFlow_steady (g : Gopacket P S) (isUsable : String → Bool) (ch : Nat → DmsChoices S F) (o : DmsOptions F)
    (input : Nat → DmsInput P F) (rounds : Nat) (cord : Producer → GoMap.Order String (List Consumer)) {w : Wiring}
    {sortedNodes : List Nat} (hl : dmsGraph.LinkedRight w sortedNodes) :
    ∃ value, (dmsFlow g isUsable ch o input rounds (dmsGraph.flow w cord)).Steady
        (fun k => passOf g isUsable (ch k) o (input k) sortedNodes) value ∧
      ∀ k name c, dmsGraph.channels.channel .graphOutput name = some c →
        value k c = dmsGraph.streamValue (passOf g isUsable (ch k) o (input k) sortedNodes) .graphOutput name :=
  hl.steady (x := dmsFlow g isUsable ch o input rounds (dmsGraph.flow w cord)) (by decide) (by decide) dmsGraph_leads
    rfl rfl dmsFlow_keeps

/-- The service has the alarms of every slot that it is through with; where nothing can go on it is through with all. -/
structure Serves (x : Service (DmsDatum P F)) (responds : Nat → List AttackInfo × Option SlowRespond)
    (s : ServiceState (DmsDatum P F)) : Prop where
  floods : ∀ k < s.id, (resultOf x s "fResponds" k).map DmsDatum.floods = some (some (responds k).1)
  slow : ∀ k < s.id, (resultOf x s "sRespond" k).map DmsDatum.slow = some (responds k).2
  ends : (∀ e, x.step s e = none) → s.id = x.slots

/-- However the goroutines of all graphs take turns with main, the service detects every slot, in the order of the
slots and on whichever graph, and is not blocked before the last of them. -/
theorem dmsService_serves (g : Gopacket P S) (isUsable : String → Bool) (ch : Nat → DmsChoices S F) (o : DmsOptions F)
    (input : Nat → DmsInput P F) {gNum : Nat} (hgNum : 0 < gNum) (slots : Nat)
    (responds : Nat → List AttackInfo × Option SlowRespond)
    (hdetect : ∀ k < slots, detect g isUsable (ch k) o (input k) = some (responds k)) (ord : Nat → EdgeOrders)
    (lord : Nat → GoMap.Order String (List Nat)) (cord : Nat → Producer → GoMap.Order String (List Consumer)) :
    ∃ nodeEdge : Nat → NodeEdges,
      (∀ i, ∃ sortedNodes, dmsGraph.getNodeEdge (ord i) = some (.ok (nodeEdge i, sortedNodes))) ∧
      let x := dmsService g isUsable ch o input gNum slots fun i =>
        dmsGraph.flow (dmsGraph.wiring (lord i) (nodeEdge i)) (cord i)
      ∃ bound, ∀ (es : List ServiceEvent) s, es.foldlM x.step x.init = some s →
        Serves x responds s ∧ es.length ≤ bound := by
  choose nodeEdge sortedNodes haccepted using fun i => dmsGraph_accepted (ord i)
  refine ⟨nodeEdge, fun i => ⟨sortedNodes i, haccepted i⟩, ?_⟩
  intro x
  have hl := fun i => dmsGraph.accepted_linked (ord i) (lord i) (haccepted i)
  choose value hsteady hvalue using fun i => dmsFlow_steady g isUsable
    (fun k => ch (i + gNum * k)) o (fun k => input (i + gNum * k)) slots (cord i) (hl i)
  have houtputs : (dmsGraph.graphOutputStream.name.filterMap (dmsGraph.channels.channel .graphOutput)).Nodup := by
    decide
  have hx : x.Steady _ value := ⟨hgNum, fun i _ => hsteady i, fun _ _ => houtputs, fun _ _ => rfl⟩
  refine ⟨x.left x.init, fun es s hs => ⟨?_, ?_⟩⟩
  · have hturn := run_preserves (fun s e t hs ht => (Service.InTurn.step hx hs ht).1) Service.inTurn_init hs
    -- slot `k` is in round `k / gNum` of graph `k % gNum`
    have hslot : ∀ k, k % gNum + gNum * (k / gNum) = k := fun k => Nat.mod_add_div k gNum
    have hresult : ∀ k < s.id, ∀ name ∈ dmsGraph.graphOutputStream.name, resultOf x s name k =
        some (dmsGraph.streamValue (passOf g isUsable (ch k) o (input k) (sortedNodes (k % gNum)))
          .graphOutput name) := by
      intro k hk name hname
      obtain ⟨c, hc⟩ := ((hl (k % gNum)).channel .graphOutput name).mpr hname
      have hout : c ∈ (x.graphs (k % gNum)).outputs :=
        (GraphUnit.mem_outputs_flow (hl (k % gNum)).channel).mpr ⟨name, hc⟩
      have hpass := hvalue (k % gNum) (k / gNum) name c hc
      rw [hslot] at hpass
      rw [resultOf, readsOf, hc, ← hpass]
      exact hturn.delivered hx hk hout
    have hlt : ∀ k < s.id, k < slots := fun k hk => hk.trans_le hturn.id_le
    refine ⟨fun k hk => ?_, fun k hk => ?_, fun hstuck => Nat.le_antisymm hturn.id_le (hturn.all_slots hx hstuck)⟩
    · rw [hresult k hk "fResponds" (by decide)]
      exact congrArg some (congrArg DmsDatum.floods (evalRound_detect (hl _) (hdetect k (hlt k hk))).1)
    · rw [hresult k hk "sRespond" (by decide)]
      exact congrArg some (evalRound_detect (hl _) (hdetect k (hlt k hk))).2
  · exact length_le_of_less (C := fun _ _ => True) (fun s e t hs ht _ => Service.InTurn.step hx hs ht)
      Service.inTurn_init (meets_of_forall fun _ _ => trivial) hs

end Loop

/-- Two graphs and three slots, in all of which the host is pinged. -/
theorem dmsService_serves_pinged : ∃ (nodeEdge : Nat → NodeEdges) (responds : List AttackInfo × Option SlowRespond),
    detect echoPackets (fun _ => false) storedDms twoPackets pinged = some responds ∧
      let x := dmsService echoPackets (fun _ => false) (fun _ => storedDms) twoPackets (fun _ => pinged) 2 3 fun i =>
        dmsGraph.flow (dmsGraph.wiring .stored (nodeEdge i)) fun _ => .stored
      ∀ (es : List ServiceEvent) s, es.foldlM x.step x.init = some s → Serves x (fun _ => responds) s := by
  have hsome : (detect echoPackets (fun _ => false) storedDms twoPackets pinged).isSome = true := by decide +kernel
  obtain ⟨responds, hdetect⟩ := Option.isSome_iff_exists.mp hsome
  obtain ⟨nodeEdge, -, bound, hruns⟩ := dmsService_serves echoPackets (fun _ => false) (fun _ => storedDms) twoPackets
    (fun _ => pinged) Nat.zero_lt_two 3 (fun _ => responds) (fun _ _ => hdetect)
    (fun _ => ⟨.stored, fun _ => .stored⟩) (fun _ => .stored) fun _ _ => .stored
  exact ⟨nodeEdge, responds, hdetect, fun es s hs => (hruns es s hs).1⟩

end Dni.Dms
