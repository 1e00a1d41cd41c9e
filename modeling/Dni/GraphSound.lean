import Dni.GraphCounts
import Dni.GraphChannels

namespace Dni

open GoMap

/-- The channel that is sent to. -/
def SendOp.target : SendOp → Option Nat
  | .send ch => some ch
  | _ => none

@[simp] theorem target_output (id : Nat) : (SendOp.output id).target = none := rfl

@[simp] theorem target_clone : SendOp.clone.target = none := rfl

@[simp] theorem target_send (ch : Nat) : (SendOp.send ch).target = some ch := rfl

theorem send_mem_iff {ch : Nat} {ops : List SendOp} : SendOp.send ch ∈ ops ↔ ch ∈ ops.filterMap SendOp.target := by
  rw [List.mem_filterMap]
  apply Iff.intro
  · intro h
    exact ⟨_, h, rfl⟩
  · intro h
    obtain ⟨op, hop, ht⟩ := h
    cases op with
    | output id => cases ht
    | clone => cases ht
    | send ch' =>
      cases ht
      exact hop

theorem count_send {ch : Nat} {ops : List SendOp} :
    ops.count (.send ch) = (ops.filterMap SendOp.target).count ch := by
  induction ops with
  | nil => rfl
  | cons op ops ih =>
    cases op with
    | output id => simpa [List.filterMap_cons] using ih
    | clone => simpa [List.filterMap_cons] using ih
    | send ch' =>
      rw [List.filterMap_cons_some (target_send ch'), List.count_cons, List.count_cons, ih]
      simp

section Targets

variable {chs : Channels} {s : String}

theorem sendNext_targets {cs : List Consumer} (h : ∀ c ∈ cs, ∃ ch, chs.channel c s = some ch) :
    (sendNext chs s cs).filterMap SendOp.target = cs.filterMap (chs.channel · s) := by
  induction cs with
  | nil => rfl
  | cons c cs ih =>
    obtain ⟨⟨ch, hch⟩, hrest⟩ := List.forall_mem_cons.mp h
    simpa [sendNext, hch, List.filterMap_cons] using ih hrest

theorem sendAll_targets {cs : List Consumer} (h : ∀ c ∈ cs, ∃ ch, chs.channel c s = some ch) :
    (sendAll chs s cs).filterMap SendOp.target = cs.filterMap (chs.channel · s) := by
  cases cs with
  | nil => rfl
  | cons c cs =>
    obtain ⟨⟨ch, hch⟩, hrest⟩ := List.forall_mem_cons.mp h
    simpa [sendAll, hch, List.filterMap_cons] using sendNext_targets hrest

theorem output_not_mem_sendNext {id : Nat} {cs : List Consumer} : SendOp.output id ∉ sendNext chs s cs := by
  induction cs with
  | nil => exact List.not_mem_nil
  | cons c cs ih =>
    rw [sendNext]
    split <;> simp [ih]

theorem output_not_mem_sendAll {id : Nat} {cs : List Consumer} : SendOp.output id ∉ sendAll chs s cs := by
  cases cs with
  | nil => exact List.not_mem_nil
  | cons c cs =>
    rw [sendAll]
    split <;> simp [output_not_mem_sendNext]

/-- AddAllData sends every stream to all its consumers. -/
theorem addAllData_targets {w : Wiring} {p : Producer} {streams : List String}
    (h : ∀ s, ∀ c ∈ w.consumers p s, ∃ ch, chs.channel c s = some ch) :
    (addAllData chs w p streams).filterMap SendOp.target =
      streams.flatMap fun s => (w.consumers p s).filterMap (chs.channel · s) := by
  have hzip : streams = streams.zipIdx.map Prod.fst := by simp
  conv_rhs => rw [hzip, List.flatMap_map]
  rw [addAllData, List.filterMap_flatMap]
  refine congrArg (fun f => List.flatMap f streams.zipIdx) (funext fun e => ?_)
  rw [List.filterMap_cons_none (target_output e.2)]
  exact sendAll_targets (h e.1)

end Targets

/-- Places in an order are read off how it splits. -/
theorem idxOf_lt_of_split {l pre post : List Nat} {a b : Nat} (hnd : l.Nodup) (hl : l = pre ++ b :: post)
    (ha : a ∈ pre) : l.idxOf a < l.idxOf b := by
  subst hl
  have hb : b ∉ pre := fun hb => (List.nodup_append.mp hnd).2.2 b hb b List.mem_cons_self rfl
  rw [List.idxOf_append_of_mem ha, List.idxOf_append_of_notMem hb, List.idxOf_cons_self, Nat.add_zero]
  exact List.idxOf_lt_length_of_mem ha

namespace GraphUnit

/-- How an accepted graph is linked, with its channels and the order of its nodes. -/
structure LinkedRight (gu : GraphUnit) (w : Wiring) (sortedNodes : List Nat) : Prop where
  wired : Wired gu.graphInputStream.name gu.graphOutputStream.name gu.streams w
  channel : ∀ c s, (∃ ch, gu.channels.channel c s = some ch) ↔ Takes gu.graphOutputStream.name gu.streams s c
  inj : ∀ c c' s s' ch, gu.channels.channel c s = some ch → gu.channels.channel c' s' = some ch → c = c' ∧ s = s'
  checked : Checked gu.graphInputStream.name gu.graphOutputStream.name gu.streams
  perm : sortedNodes.Perm (List.range gu.streams.length)
  sorted : ∀ s a b, Dni.Reads gu.graphInputStream.name gu.streams s a b →
    ∃ pre post, sortedNodes = pre ++ b :: post ∧ a ∈ pre

section Sound

variable {gu : GraphUnit} {w : Wiring} {cord : Producer → Order String (List Consumer)}
  (hw : Wired gu.graphInputStream.name gu.graphOutputStream.name gu.streams w)
  (hchannel : ∀ c s, (∃ ch, gu.channels.channel c s = some ch) ↔ Takes gu.graphOutputStream.name gu.streams s c)
  (hinj : ∀ c c' s s' ch, gu.channels.channel c s = some ch → gu.channels.channel c' s' = some ch → c = c' ∧ s = s')

theorem present_of_has {p : Producer} (h : (gu.flow w cord).Has p) : Present gu.streams p := by
  cases p with
  | graphInput => trivial
  | node a =>
    rw [Present, streams, List.length_map]
    exact h.1

theorem makes_iff {p : Producer} {s : String} :
    Makes gu.graphInputStream.name gu.streams s p ↔ s ∈ gu.outputNames p := by
  cases p with
  | graphInput => exact Iff.rfl
  | node a =>
    simp only [Makes, streams, outputNames, List.getElem?_map]
    cases gu.nodes[a]? <;> simp

theorem takes_iff {a : Nat} {s : String} :
    Takes gu.graphOutputStream.name gu.streams s (.node a) ↔ s ∈ gu.inputNames a := by
  simp only [Takes, streams, inputNames, List.getElem?_map]
  cases gu.nodes[a]? <;> simp

include hchannel

theorem reads_iff {a ch : Nat} : (gu.flow w cord).Reads a ch ↔ ∃ s, gu.channels.channel (.node a) s = some ch := by
  have hmem : ch ∈ (gu.flow w cord).inputs a ↔ ∃ s, gu.channels.channel (.node a) s = some ch := by
    refine List.mem_filterMap.trans ?_
    apply Iff.intro
    · intro h
      obtain ⟨s, -, hch⟩ := h
      exact ⟨s, hch⟩
    · intro h
      obtain ⟨s, hch⟩ := h
      exact ⟨s, takes_iff.mp ((hchannel (.node a) s).mp ⟨ch, hch⟩), hch⟩
  rw [FlowGraph.Reads, hmem]
  refine and_iff_right_of_imp fun h => ⟨?_, List.ne_nil_of_mem (hmem.mpr h)⟩
  obtain ⟨s, hch⟩ := h
  obtain ⟨node, hnode, -⟩ := (hchannel (.node a) s).mp ⟨ch, hch⟩
  have hlt := (List.getElem?_eq_some_iff.mp hnode).1
  rwa [streams, List.length_map] at hlt

/-- A node with an input stream is busy. -/
theorem busy_of_name {a : Nat} (ha : a < gu.nodes.length) (h : gu.nodes[a].inputStream.name ≠ []) :
    (gu.flow w cord).Busy a := by
  obtain ⟨s, names, hs⟩ := List.exists_cons_of_ne_nil h
  have hs' : s ∈ gu.inputNames a := by
    rw [inputNames, List.getElem?_eq_getElem ha]
    simp [hs]
  obtain ⟨ch, hch⟩ := (hchannel (.node a) s).mpr (takes_iff.mpr hs')
  exact ((reads_iff hchannel).mpr ⟨s, hch⟩).1

theorem has_of_makes (hinputs : ∀ node ∈ gu.nodes, node.outputStream.name ≠ [] → node.inputStream.name ≠ [])
    {p : Producer} {s : String} (h : Makes gu.graphInputStream.name gu.streams s p) : (gu.flow w cord).Has p := by
  cases p with
  | graphInput => trivial
  | node a =>
    rw [makes_iff, outputNames] at h
    split at h
    next => cases h
    next node hnode =>
      obtain ⟨ha, rfl⟩ := List.getElem?_eq_some_iff.mp hnode
      exact busy_of_name hchannel ha (hinputs _ (List.getElem_mem ha) (List.ne_nil_of_mem h))

theorem mem_outputs_flow {ch : Nat} : ch ∈ (gu.flow w cord).outputs ↔ ∃ s, gu.channels.channel .graphOutput s = some ch := by
  refine List.mem_filterMap.trans ?_
  apply Iff.intro
  · intro h
    obtain ⟨s, -, hch⟩ := h
    exact ⟨s, hch⟩
  · intro h
    obtain ⟨s, hch⟩ := h
    exact ⟨s, (hchannel .graphOutput s).mp ⟨ch, hch⟩, hch⟩

include hw

theorem consumers_channel {p : Producer} (hp : Present gu.streams p) (s : String) :
    ∀ c ∈ w.consumers p s, ∃ ch, gu.channels.channel c s = some ch :=
  fun c hc => (hchannel c s).mpr ((hw.mem p s c hp).mp hc).1

/-- A producer feeds the channels of its consumers. -/
theorem sends_iff {p : Producer} {ch : Nat} (hp : Present gu.streams p) : SendOp.send ch ∈ (gu.flow w cord).sends p ↔
    ∃ s, ∃ c ∈ w.consumers p s, gu.channels.channel c s = some ch := by
  rw [send_mem_iff, show (gu.flow w cord).sends p = addAllData gu.channels w p (gu.outputNames p) from rfl,
    addAllData_targets (consumers_channel hw hchannel hp), List.mem_flatMap]
  apply Iff.intro
  · intro h
    obtain ⟨s, -, h⟩ := h
    obtain ⟨c, hc, hch⟩ := List.mem_filterMap.mp h
    exact ⟨s, c, hc, hch⟩
  · intro h
    obtain ⟨s, c, hc, hch⟩ := h
    exact ⟨s, makes_iff.mp ((hw.mem p s c hp).mp hc).2.1, List.mem_filterMap.mpr ⟨c, hc, hch⟩⟩

omit hw hchannel in
theorem closes_iff {p : Producer} {ch : Nat} : ch ∈ (gu.flow w cord).closes p ↔
    ∃ s, ∃ c ∈ w.consumers p s, gu.channels.channel c s = some ch := by
  refine List.mem_flatMap.trans ?_
  apply Iff.intro
  · intro h
    obtain ⟨e, he, h⟩ := h
    obtain ⟨c, hc, hch⟩ := List.mem_filterMap.mp h
    have hlookup := (cord p).mem_run.mp he
    exact ⟨e.1, c, by rw [Wiring.consumers, hlookup]; exact hc, hch⟩
  · intro h
    obtain ⟨s, c, hc, hch⟩ := h
    cases hl : (w.next p).lookup s with
    | none =>
      rw [Wiring.consumers, hl] at hc
      cases hc
    | some cs =>
      rw [Wiring.consumers, hl] at hc
      exact ⟨(s, cs), (cord p).mem_run.mpr hl, List.mem_filterMap.mpr ⟨c, hc, hch⟩⟩

include hinj

/-- A channel is fed once for every time its stream is listed. -/
theorem count_sends_le {p : Producer} (hp : Present gu.streams p) {c : Consumer} {s : String} {ch : Nat}
    (hch : gu.channels.channel c s = some ch) :
    ((gu.flow w cord).sends p).count (.send ch) ≤ (gu.outputNames p).count s := by
  rw [count_send, show (gu.flow w cord).sends p = addAllData gu.channels w p (gu.outputNames p) from rfl,
    addAllData_targets (consumers_channel hw hchannel hp)]
  induction gu.outputNames p with
  | nil => exact Nat.le_refl _
  | cons s' names ih =>
    rw [List.flatMap_cons, List.count_append, List.count_cons, Nat.add_comm]
    refine Nat.add_le_add ih ?_
    by_cases hs : s' = s
    · rw [if_pos (beq_iff_eq.mpr hs)]
      refine List.nodup_iff_count_le_one.mp ((hw.nodup p s' hp).filterMap fun c₁ c₂ ch' h₁ h₂ => ?_) ch
      exact (hinj _ _ _ _ _ h₁ h₂).1
    · rw [if_neg (by simpa using hs), Nat.le_zero]
      refine List.count_eq_zero.mpr fun hmem => hs ?_
      obtain ⟨c', -, hch'⟩ := List.mem_filterMap.mp hmem
      exact (hinj _ _ _ _ _ hch' hch).2

omit hchannel in
theorem closes_nodup {p : Producer} (hp : Present gu.streams p) : ((gu.flow w cord).closes p).Nodup := by
  have hops : closeOps gu.channels ((cord p).run (w.next p)) = ((gu.flow w cord).closes p).map .close := by
    simp [closeOps, flow, closeChannels, List.map_flatMap, List.map_filterMap]
  rw [List.nodup_iff_count_le_one]
  intro ch
  by_cases hmem : ch ∈ (gu.flow w cord).closes p
  · obtain ⟨s, c, -, hch⟩ := closes_iff.mp hmem
    have hcount := count_closeOps hinj hch (cord p) fun s => hw.nodup p s hp
    rw [hops, List.count_map_of_injective _ _ fun _ _ => ChannelOp.close.inj] at hcount
    rw [hcount]
    split <;> omega
  · rw [List.count_eq_zero.mpr hmem]
    exact Nat.zero_le 1

/-- The producer that feeds a channel is the source of its stream. -/
theorem feeds_iff (hinputs : ∀ node ∈ gu.nodes, node.outputStream.name ≠ [] → node.inputStream.name ≠ [])
    {p : Producer} {c : Consumer} {s : String} {ch : Nat} (hch : gu.channels.channel c s = some ch) :
    (gu.flow w cord).Feeds p ch ↔ Present gu.streams p ∧ Source gu.graphInputStream.name gu.streams s p c := by
  apply Iff.intro
  · intro h
    have hp := present_of_has h.1
    obtain ⟨s', c', hc', hch'⟩ := (sends_iff hw hchannel hp).mp h.2
    obtain ⟨rfl, rfl⟩ := hinj _ _ _ _ _ hch' hch
    exact ⟨hp, ((hw.mem p s' c' hp).mp hc').2⟩
  · intro ⟨hp, h⟩
    refine ⟨has_of_makes hchannel hinputs h.1, (sends_iff hw hchannel hp).mpr ⟨s, c, ?_, hch⟩⟩
    exact (hw.mem p s c hp).mpr ⟨(hchannel c s).mp ⟨ch, hch⟩, h⟩

end Sound

section Linked

variable {gu : GraphUnit} {w : Wiring} {cord : Producer → Order String (List Consumer)} {sortedNodes : List Nat}
  (hl : gu.LinkedRight w sortedNodes)
  (hnames : ∀ node ∈ gu.nodes, ∀ s ∈ node.inputStream.name, gu.graphInputStream.name.count s ≤ 1)

include hl hnames

/-- A stream that is taken is listed once. -/
theorem LinkedRight.count_le {p : Producer} (hp : Present gu.streams p) {s : String} {c : Consumer}
    (hc : c ∈ w.consumers p s) : (gu.outputNames p).count s ≤ 1 := by
  cases p with
  | graphInput =>
    obtain ⟨htakes, hsource⟩ := (hl.wired.mem .graphInput s c trivial).mp hc
    cases c with
    | node a =>
      obtain ⟨node, hnode, hs⟩ := htakes
      obtain ⟨unit, hunit, rfl⟩ := List.mem_map.mp (List.mem_of_getElem? hnode)
      exact hnames unit hunit s hs
    | graphOutput => exact hsource.2.elim
  | node a =>
    have ha : a < gu.nodes.length := by
      rwa [Present, streams, List.length_map] at hp
    refine List.nodup_iff_count_le_one.mp ?_ s
    rw [outputNames, List.getElem?_eq_getElem ha]
    exact (List.nodup_flatMap.mp hl.checked.outputs).1 _ (List.mem_map_of_mem (List.getElem_mem ha))

/-- The graph of channels, if all nodes that make a stream are fed and no graph input that a node takes is listed
twice. -/
theorem LinkedRight.sound (hinputs : ∀ node ∈ gu.nodes, node.outputStream.name ≠ [] → node.inputStream.name ≠ []) :
    (gu.flow w cord).Sound where
  idle a ha hnone := by
    refine List.eq_nil_iff_forall_not_mem.mpr fun ch hch => ?_
    obtain ⟨s, c, hc, -⟩ := closes_iff.mp hch
    have hp : Present gu.streams (.node a) := by
      rw [Present, streams, List.length_map]
      exact ha
    have hbusy : (gu.flow w cord).Busy a := has_of_makes hl.channel hinputs ((hl.wired.mem _ s c hp).mp hc).2.1
    exact hbusy.2 hnone
  nodup a ha := by
    have hnames' : (gu.inputNames a).Nodup := by
      rw [inputNames, List.getElem?_eq_getElem ha]
      exact hl.checked.inputs _ (List.mem_map_of_mem (List.getElem_mem ha))
    exact hnames'.filterMap fun s₁ s₂ ch h₁ h₂ => (hl.inj _ _ _ _ _ h₁ h₂).2
  reader a b ch ha hb := by
    obtain ⟨s, hs⟩ := (reads_iff hl.channel).mp ha
    obtain ⟨s', hs'⟩ := (reads_iff hl.channel).mp hb
    exact Consumer.node.inj (hl.inj _ _ _ _ _ hs hs').1
  apart a ch ha hout := by
    obtain ⟨s, hs⟩ := (reads_iff hl.channel).mp ha
    obtain ⟨s', hs'⟩ := (mem_outputs_flow hl.channel).mp hout
    cases (hl.inj _ _ _ _ _ hs hs').1
  fed a ch ha := by
    obtain ⟨s, hch⟩ := (reads_iff hl.channel).mp ha
    obtain ⟨p, hp, hsource, -⟩ := hl.checked.source_unique ((hl.channel _ s).mp ⟨ch, hch⟩)
    exact ⟨p, (feeds_iff hl.wired hl.channel hl.inj hinputs hch).mpr ⟨hp, hsource⟩⟩
  single p q ch hp hq := by
    obtain ⟨s, c, -, hch⟩ := (sends_iff hl.wired hl.channel (present_of_has hp.1)).mp hp.2
    obtain ⟨r, -, -, hone⟩ := hl.checked.source_unique ((hl.channel _ s).mp ⟨ch, hch⟩)
    rw [hone p ((feeds_iff hl.wired hl.channel hl.inj hinputs hch).mp hp).2,
      hone q ((feeds_iff hl.wired hl.channel hl.inj hinputs hch).mp hq).2]
  made ch hout := by
    obtain ⟨s, hch⟩ := (mem_outputs_flow hl.channel).mp hout
    obtain ⟨p, hp, hsource, -⟩ := hl.checked.source_unique ((hl.channel _ s).mp ⟨ch, hch⟩)
    exact ⟨p, (feeds_iff hl.wired hl.channel hl.inj hinputs hch).mpr ⟨hp, hsource⟩⟩
  taken p ch hp := by
    obtain ⟨s, c, -, hch⟩ := (sends_iff hl.wired hl.channel (present_of_has hp.1)).mp hp.2
    cases c with
    | node a => exact Or.inr ⟨a, (reads_iff hl.channel).mpr ⟨s, hch⟩⟩
    | graphOutput => exact Or.inl ((mem_outputs_flow hl.channel).mpr ⟨s, hch⟩)
  once p ch hp := by
    by_cases hmem : SendOp.send ch ∈ (gu.flow w cord).sends p
    · obtain ⟨s, c, hc, hch⟩ := (sends_iff hl.wired hl.channel (present_of_has hp)).mp hmem
      exact (count_sends_le hl.wired hl.channel hl.inj (present_of_has hp) hch).trans
        (hl.count_le hnames (present_of_has hp) hc)
    · rw [List.count_eq_zero.mpr hmem]
      exact Nat.zero_le 1
  closes p ch hp := by
    rw [sends_iff hl.wired hl.channel (present_of_has hp)]
    exact closes_iff
  closesNodup p hp := closes_nodup hl.wired hl.inj (present_of_has hp)
  slots a ha id hid := by
    obtain ⟨e, he, hmem⟩ := List.mem_flatMap.mp hid
    have hlt : e.2 < (gu.outputNames (.node a)).length := List.snd_lt_of_mem_zipIdx he
    obtain h | h := List.mem_cons.mp hmem
    · cases h
      exact hlt
    · exact absurd h output_not_mem_sendAll
  forward := by
    refine ⟨sortedNodes.idxOf, fun a b ch ha hb => ?_⟩
    obtain ⟨s, hch⟩ := (reads_iff hl.channel).mp hb
    obtain ⟨hmakes, hfree⟩ := ((feeds_iff hl.wired hl.channel hl.inj hinputs hch).mp ha).2
    obtain ⟨pre, post, hsplit, hmem⟩ := hl.sorted s a b ⟨hfree, (hl.channel _ s).mp ⟨ch, hch⟩, hmakes⟩
    exact idxOf_lt_of_split (hl.perm.nodup_iff.mpr List.nodup_range) hsplit hmem

end Linked

/-- Every accepted graph is linked as its names say. -/
theorem accepted_linked (gu : GraphUnit) (ord : EdgeOrders) (lord : Order String (List Nat))
    {nodeEdge : NodeEdges} {sortedNodes : List Nat} (h : gu.getNodeEdge ord = some (.ok (nodeEdge, sortedNodes))) :
    gu.LinkedRight (gu.wiring lord nodeEdge) sortedNodes := by
  have hstreams : gu.nodes.map (fun node => node.inputStream.name) = gu.streams.map Prod.fst := by
    rw [streams, List.map_map]
    rfl
  have hw : Wired gu.graphInputStream.name gu.graphOutputStream.name gu.streams (gu.wiring lord nodeEdge) := by
    have hlink := link_wired h lord
    rwa [show gu.wiring lord nodeEdge = _ from rfl, wiring, getSourceEdge, hstreams]
  obtain ⟨htakes, hinj⟩ := makeChannels_spec gu.graphOutputStream.name gu.streams
  rw [← hstreams] at htakes hinj
  have hchecked : Checked gu.graphInputStream.name gu.graphOutputStream.name gu.streams := checked_of_accepted h
  have hedges : getEdges ord gu.graphInputStream.name gu.graphOutputStream.name gu.streams =
      some (.ok (nodeEdge, sortedNodes)) := h
  obtain ⟨nodeEdge', sortedNodes', he, hperm, hsorted, -⟩ :=
    (getEdges_correct ord _ _ gu.streams).accepted hchecked (by rw [hedges]; simp)
  rw [hedges] at he
  cases he
  exact ⟨hw, htakes, hinj, hchecked, hperm, hsorted⟩

end GraphUnit

end Dni
