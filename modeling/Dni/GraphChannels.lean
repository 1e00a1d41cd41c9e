import Dni.GraphWiring

namespace Dni

open GoMap

/-- The channels that NewInputManager makes, numbered from `fresh` on, and the next number. -/
def newInputManager (names : List String) (fresh : Nat) : GoMap String Nat × Nat :=
  names.foldl (fun r stream => (r.1.insert stream r.2, r.2 + 1)) (∅, fresh)

def newInputManagers : List (List String) → Nat → List (GoMap String Nat)
  | [], _ => []
  | names :: rest, fresh =>
    let r := newInputManager names fresh
    r.1 :: newInputManagers rest r.2

/-- The channels of the graph outputs, which are made first, and of the nodes. -/
structure Channels where
  graphOutput : GoMap String Nat
  nodes : List (GoMap String Nat)

def makeChannels (gOutputNames : List String) (nodeInputs : List (List String)) : Channels :=
  let r := newInputManager gOutputNames 0
  ⟨r.1, newInputManagers nodeInputs r.2⟩

namespace GraphUnit

def streams (gu : GraphUnit) : Streams :=
  gu.nodes.map fun node => (node.inputStream.name, node.outputStream.name)

def channels (gu : GraphUnit) : Channels :=
  makeChannels gu.graphOutputStream.name (gu.nodes.map fun node => node.inputStream.name)

/-- The stream links of PrepareForRun. -/
def wiring (gu : GraphUnit) (ord : Order String (List Nat)) (nodeEdge : NodeEdges) : Wiring :=
  link ord gu.graphInputStream.name gu.graphOutputStream.name gu.getSourceEdge nodeEdge

end GraphUnit

/-- GetInputStreamChannel of the consumer's input manager. -/
def Channels.channel (chs : Channels) : Consumer → String → Option Nat
  | .node b, s => chs.nodes[b]?.bind (·.lookup s)
  | .graphOutput, s => chs.graphOutput.lookup s

inductive ChannelOp
  | send (ch : Nat)
  | close (ch : Nat)
  deriving DecidableEq

/-- OutputManager.AddData: a consumer without the channel ends the loop. -/
def addDataOps (chs : Channels) (s : String) : List Consumer → List ChannelOp
  | [] => []
  | c :: cs =>
    match chs.channel c s with
    | none => []
    | some ch => .send ch :: addDataOps chs s cs

/-- OutputManager.Close: a consumer without the channel is passed over. -/
def closeOps (chs : Channels) (next : List (String × List Consumer)) : List ChannelOp :=
  next.flatMap fun e => e.2.filterMap fun c => (chs.channel c e.1).map .close

/-- The channel is closed once, and nothing is sent to it afterwards. -/
structure ClosedRight (ops : List ChannelOp) (ch : Nat) : Prop where
  once : ops.count (.close ch) = 1
  last : ops.Pairwise fun op op' => ¬ (op = .close ch ∧ op' = .send ch)

section Fresh

theorem newInputManager_spec (names : List String) (fresh : Nat) :
    fresh ≤ (newInputManager names fresh).2 ∧
    (∀ s, s ∈ (newInputManager names fresh).1 ↔ s ∈ names) ∧
    (∀ s ch, (newInputManager names fresh).1.lookup s = some ch → fresh ≤ ch ∧ ch < (newInputManager names fresh).2) ∧
    ∀ s s' ch, (newInputManager names fresh).1.lookup s = some ch →
      (newInputManager names fresh).1.lookup s' = some ch → s = s' := by
  unfold newInputManager
  induction names using List.reverseRecOn with
  | nil => simp
  | append_singleton names name ih =>
    obtain ⟨hle, hkeys, hrange, hinj⟩ := ih
    rw [List.foldl_append, List.foldl_cons, List.foldl_nil]
    refine ⟨Nat.le_succ_of_le hle, fun s => ?_, fun s ch h => ?_, fun s s' ch h h' => ?_⟩
    · rw [AList.mem_insert, hkeys, List.mem_append, List.mem_singleton, or_comm]
    · rw [lookup_insert_if] at h
      split at h
      next =>
        cases h
        exact ⟨hle, Nat.lt_succ_self _⟩
      next =>
        obtain ⟨hlo, hhi⟩ := hrange s ch h
        exact ⟨hlo, Nat.lt_succ_of_lt hhi⟩
    · rw [lookup_insert_if] at h h'
      split at h
      next hs =>
        cases h
        split at h'
        next hs' => rw [hs, hs']
        next => exact absurd (hrange s' _ h').2 (Nat.lt_irrefl _)
      next =>
        split at h'
        next =>
          cases h'
          exact absurd (hrange s _ h).2 (Nat.lt_irrefl _)
        next => exact hinj s s' ch h h'

theorem newInputManagers_spec (nodeInputs : List (List String)) (fresh : Nat) :
    (∀ (b : Nat) (s : String) (ch : Nat), (newInputManagers nodeInputs fresh)[b]?.bind (·.lookup s) = some ch → fresh ≤ ch) ∧
    (∀ (b : Nat) (s : String), (∃ ch, (newInputManagers nodeInputs fresh)[b]?.bind (·.lookup s) = some ch) ↔
      ∃ names, nodeInputs[b]? = some names ∧ s ∈ names) ∧
    ∀ (b b' : Nat) (s s' : String) (ch : Nat), (newInputManagers nodeInputs fresh)[b]?.bind (·.lookup s) = some ch →
      (newInputManagers nodeInputs fresh)[b']?.bind (·.lookup s') = some ch → b = b' ∧ s = s' := by
  induction nodeInputs generalizing fresh with
  | nil => simp [newInputManagers]
  | cons names nodeInputs ih =>
    obtain ⟨hle, hkeys, hrange, hinj⟩ := newInputManager_spec names fresh
    obtain ⟨irange, ikeys, iinj⟩ := ih (newInputManager names fresh).2
    simp only [newInputManagers]
    refine ⟨fun b s ch h => ?_, fun b s => ?_, fun b b' s s' ch h h' => ?_⟩
    · cases b with
      | zero => exact (hrange s ch h).1
      | succ b => exact hle.trans (irange b s ch h)
    · cases b with
      | zero => simpa [mem_iff_lookup] using hkeys s
      | succ b => simpa using ikeys b s
    · cases b with
      | zero =>
        cases b' with
        | zero => exact ⟨rfl, hinj s s' ch h h'⟩
        | succ b' =>
          have hlo := irange b' s' ch h'
          have hhi := (hrange s ch h).2
          omega
      | succ b =>
        cases b' with
        | zero =>
          have hlo := irange b s ch h
          have hhi := (hrange s' ch h').2
          omega
        | succ b' =>
          obtain ⟨hb, hs⟩ := iinj b b' s s' ch h h'
          exact ⟨by rw [hb], hs⟩

/-- Every consumer has a channel for each of its streams, and no two share one. -/
theorem makeChannels_spec (gOutputs : List String) (nodes : Streams) :
    (∀ c s, (∃ ch, (makeChannels gOutputs (nodes.map Prod.fst)).channel c s = some ch) ↔ Takes gOutputs nodes s c) ∧
    ∀ c c' s s' ch, (makeChannels gOutputs (nodes.map Prod.fst)).channel c s = some ch →
      (makeChannels gOutputs (nodes.map Prod.fst)).channel c' s' = some ch → c = c' ∧ s = s' := by
  obtain ⟨-, hkeys, hrange, hinj⟩ := newInputManager_spec gOutputs 0
  obtain ⟨irange, ikeys, iinj⟩ := newInputManagers_spec (nodes.map Prod.fst) (newInputManager gOutputs 0).2
  refine ⟨fun c s => ?_, fun c c' s s' ch h h' => ?_⟩
  · cases c with
    | node b =>
      refine (ikeys b s).trans ?_
      simp [Takes, List.getElem?_map]
    | graphOutput =>
      rw [Takes, ← hkeys s, mem_iff_lookup]
      rfl
  · cases c with
    | node b =>
      cases c' with
      | node b' =>
        obtain ⟨hb, hs⟩ := iinj b b' s s' ch h h'
        exact ⟨by rw [hb], hs⟩
      | graphOutput =>
        have hlo := irange b s ch h
        have hhi := (hrange s' ch h').2
        omega
    | graphOutput =>
      cases c' with
      | node b' =>
        have hlo := irange b' s' ch h'
        have hhi := (hrange s ch h).2
        omega
      | graphOutput => exact ⟨rfl, hinj s s' ch h h'⟩

end Fresh

section Run

variable {w : Wiring} {chs : Channels} {ord : Producer → Order String (List Consumer)}
  (hinj : ∀ c c' s s' ch, chs.channel c s = some ch → chs.channel c' s' = some ch → c = c' ∧ s = s')

include hinj

/-- Only the sends of its stream to its consumer reach a channel. -/
theorem send_mem_addDataOps {s s' : String} {c : Consumer} {ch : Nat} (hch : chs.channel c s = some ch)
    {cs : List Consumer} (h : .send ch ∈ addDataOps chs s' cs) : s' = s ∧ c ∈ cs := by
  induction cs with
  | nil => cases h
  | cons c' cs ih =>
    rw [addDataOps] at h
    split at h
    next => cases h
    next ch' hch' =>
      obtain hhead | htail := List.mem_cons.mp h
      · cases hhead
        obtain ⟨hc, hs⟩ := hinj _ _ _ _ _ hch hch'
        rw [← hc, ← hs]
        exact ⟨rfl, List.mem_cons_self⟩
      · obtain ⟨hs, hc⟩ := ih htail
        exact ⟨hs, List.mem_cons_of_mem _ hc⟩

omit hinj in
theorem close_not_mem_addDataOps {ch : Nat} {s : String} {cs : List Consumer} :
    .close ch ∉ addDataOps chs s cs := by
  induction cs with
  | nil => exact List.not_mem_nil
  | cons c cs ih =>
    rw [addDataOps]
    split
    · exact List.not_mem_nil
    · simp [ih]

omit hinj in
theorem send_not_mem_closeOps {ch : Nat} {next : List (String × List Consumer)} : .send ch ∉ closeOps chs next := by
  simp [closeOps]

/-- A producer's Close closes the channels of its consumers, each once. -/
theorem count_closeOps {s : String} {c : Consumer} {ch : Nat} (hch : chs.channel c s = some ch)
    (o : Order String (List Consumer)) {next : GoMap String (List Consumer)}
    (hnd : ∀ s, ((next.lookup s).getD []).Nodup) :
    (closeOps chs (o.run next)).count (.close ch) = if c ∈ (next.lookup s).getD [] then 1 else 0 := by
  have hops : closeOps chs (o.run next) = ((o.run next).flatMap fun e => e.2.map (e.1, ·)).filterMap
      fun l => (chs.channel l.2 l.1).map .close := by
    simp [closeOps, List.filterMap_flatMap, List.filterMap_map]
  have hlookup : ∀ e ∈ o.run next, next.lookup e.1 = some e.2 := fun e he => o.mem_run.mp he
  have hlinks : ((o.run next).flatMap fun e => e.2.map (e.1, ·)).Nodup := by
    refine List.nodup_flatMap.mpr ⟨fun e he => ?_, ?_⟩
    · have hone := hnd e.1
      rw [hlookup e he] at hone
      exact hone.map fun a b hab => (Prod.mk.inj hab).2
    · have hkeys : ((o.run next).map Prod.fst).Pairwise (· ≠ ·) := o.keys_nodup next
      refine (List.pairwise_map.mp hkeys).imp fun {e e'} hne x hx hy => hne ?_
      obtain ⟨_, _, hx⟩ := List.mem_map.mp hx
      obtain ⟨_, _, hy⟩ := List.mem_map.mp hy
      exact (Prod.mk.inj (hx.trans hy.symm)).1
  have hclose : ∀ l : String × Consumer, (chs.channel l.2 l.1).map ChannelOp.close = some (.close ch) ↔
      l = (s, c) := by
    intro l
    apply Iff.intro
    · intro h
      obtain ⟨ch', hch', he⟩ := Option.map_eq_some_iff.mp h
      cases he
      obtain ⟨hc, hs⟩ := hinj _ _ _ _ _ hch' hch
      exact Prod.ext hs hc
    · intro h
      rw [h, hch]
      rfl
  rw [hops]
  have hnodup : (((o.run next).flatMap fun e => e.2.map (e.1, ·)).filterMap
      fun l => (chs.channel l.2 l.1).map ChannelOp.close).Nodup := by
    refine hlinks.filterMap fun l l' op hop hop' => ?_
    obtain ⟨ch₁, h₁, he₁⟩ := Option.map_eq_some_iff.mp hop
    obtain ⟨ch₂, h₂, he₂⟩ := Option.map_eq_some_iff.mp hop'
    cases he₁
    cases he₂
    obtain ⟨hc, hs⟩ := hinj _ _ _ _ _ h₁ h₂
    exact Prod.ext hs hc
  rw [hnodup.count]
  refine if_congr (List.mem_filterMap.trans ?_) rfl rfl
  apply Iff.intro
  · intro h
    obtain ⟨l, hl, he⟩ := h
    rw [(hclose l).mp he] at hl
    obtain ⟨e, hmem, hl⟩ := List.mem_flatMap.mp hl
    obtain ⟨c', hc', he⟩ := List.mem_map.mp hl
    cases he
    rw [hlookup e hmem]
    exact hc'
  · intro h
    refine ⟨(s, c), ?_, (hclose _).mpr rfl⟩
    cases hl : next.lookup s with
    | none =>
      rw [hl] at h
      cases h
    | some cs =>
      rw [hl] at h
      exact List.mem_flatMap.mpr ⟨(s, cs), o.mem_run.mpr hl, List.mem_map.mpr ⟨c, h, rfl⟩⟩

end Run

/-- A graph of one node that reads the graph input and makes the graph output. -/
def oneNode : GraphUnit where
  graphInputStream := ⟨["a"]⟩
  graphOutputStream := ⟨["b"]⟩
  graphInputSideData := ⟨[]⟩
  graphOutputSideData := ⟨[]⟩
  nodes := [⟨⟨["a"]⟩, ⟨["b"]⟩, ⟨[]⟩, ⟨[]⟩⟩]

def oneNodeEdge : NodeEdges := (∅ : NodeEdges).insert 0 ((∅ : GoMap String (List Nat)).insert "b" [])

/-- A graph whose second node reads an input of the graph and the output of the first. -/
def joinGraph : GraphUnit where
  graphInputStream := ⟨["a", "b"]⟩
  graphOutputStream := ⟨["d"]⟩
  graphInputSideData := ⟨[]⟩
  graphOutputSideData := ⟨[]⟩
  nodes := [⟨⟨["a"]⟩, ⟨["c"]⟩, ⟨[]⟩, ⟨[]⟩⟩, ⟨⟨["b", "c"]⟩, ⟨["d"]⟩, ⟨[]⟩, ⟨[]⟩⟩]

def joinEdge : NodeEdges :=
  ((∅ : NodeEdges).insert 1 ((∅ : GoMap String (List Nat)).insert "d" []) : NodeEdges).insert 0
    ((∅ : GoMap String (List Nat)).insert "c" [1])

end Dni
