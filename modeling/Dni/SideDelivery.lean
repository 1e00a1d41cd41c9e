import Dni.GraphMirrors
import Dni.SyncSet
import Dni.Lib.Loops
import Mathlib.Logic.Function.Basic

namespace Dni.Cpp

open Utils

variable {α : Type}

/-- The type system is not there yet: every datum is accepted. -/
def Dtype.Validate (_ : Datum α) : Int := 0

def Datum.IsEmpty (d : Datum α) : Bool := d.value.isNone

/-- The input side data of each node's handler; a node that was not prepared has none. -/
abbrev SideSlots (α : Type) := Nat → Option (List (Datum α))

namespace InputSideDataHandler

/-- Every name needs a datum. -/
def PrepareForRun (names : List Text) (allSideData : GoMap Text (Datum α)) : Option (List (Datum α)) :=
  names.mapM allSideData.lookup

/-- The vector's `at` throws, and a pointer that was not set is dereferenced. -/
def Set (inputSideData : Option (List (Datum α))) (i : Nat) (d : Datum α) :
    Except Stop (List (Datum α) × Int) :=
  match inputSideData with
  | none => .error .nullDeref
  | some data =>
    match data[i]? with
    | none => .error .terminated
    | some slot =>
      if slot.IsEmpty = false then .ok (data, -1)
      else if Dtype.Validate d ≠ 0 then .ok (data, -1)
      else .ok (data.set i d, 0)

end InputSideDataHandler

/-- The side data of a run: what each output was last set to, and the slots of the consumers. -/
structure SideRun (α : Type) where
  datum : Nat → Datum α
  slots : SideSlots α

/-- What stands in a slot of a node. -/
def slotOf (slots : SideSlots α) (slot : Nat × Nat) : Option (Datum α) := (slots slot.1).bind fun data => data[slot.2]?

def SideRun.slot (st : SideRun α) (slot : Nat × Nat) : Option (Datum α) := slotOf st.slots slot

namespace OutputSideDatumImpl

/-- The loop over the mirrors drops what Set returns. -/
def setMirrors (datum : Datum α) : List (Nat × Nat) → SideSlots α → Except Stop (SideSlots α)
  | [], slots => .ok slots
  | (node, id) :: mirrors, slots =>
    match InputSideDataHandler.Set (slots node) id datum with
    | .error e => .error e
    | .ok (data, _) => setMirrors datum mirrors (Function.update slots node (some data))

def Set (k : Nat) (mirrors : List (Nat × Nat)) (datum : Datum α) (st : SideRun α) : Except Stop (SideRun α) :=
  (setMirrors datum mirrors st.slots).map fun slots => ⟨Function.update st.datum k datum, slots⟩

end OutputSideDatumImpl

namespace Graph

/-- The mirrors of an output side datum, in the order in which the nodes add them. -/
def sideMirrors (graph : Graph) (k : Nat) : List (Nat × Nat) :=
  graph.mirrors.sideData.filterMap fun m => if m.1 = k then some m.2 else none

/-- `current_input_side_data_`: a default datum for each name; no code sets its timestamp. -/
def currentSideData (cfg : ParsedGraphConfig) (unset : Int) : GoMap Text (Datum α) :=
  cfg.sideData.outputs.foldl (fun (m : GoMap Text (Datum α)) e => m.insert e.name ⟨none, unset⟩) ∅

/-- PrepareForRun gives every node a default datum for each of its names. -/
def prepareSideData (graph : Graph) (unset : Int) : SideSlots α := fun i =>
  (graph.nodes[i]?).bind fun node =>
    InputSideDataHandler.PrepareForRun node.info.Config.InputSideData.names (currentSideData graph.cfg unset)

/-- The loop over the output side data, which stops at the first with the name. -/
def setNamed (graph : Graph) (name : Text) (datum : Datum α) :
    List (EdgeInfo × Nat) → SideRun α → Except Stop (SideRun α)
  | [], st => .ok st
  | (e, k) :: es, st =>
    if name = e.name then OutputSideDatumImpl.Set k (graph.sideMirrors k) datum st
    else setNamed graph name datum es st

def AddDatumToInputSideData (graph : Graph) (name : Text) (datum : Datum α) (st : SideRun α) :
    Except Stop (SideRun α × Int) :=
  (setNamed graph name datum graph.cfg.sideData.outputs.zipIdx st).map fun st => (st, 0)

/-- Every node has a slot for each of its side data. -/
def SidePrepared (graph : Graph) (slots : SideSlots α) : Prop :=
  ∀ (i : Nat) info, graph.cfg.Nodes[i]? = some info →
    ∃ data, slots i = some data ∧ data.length = info.Config.InputSideData.names.length

/-- A consumer slot is linked to a side datum of the name. -/
def LinkedTo (graph : Graph) (name : Text) (slot : Nat × Nat) : Prop :=
  ∃ (k : Nat) (e : EdgeInfo), graph.cfg.sideData.outputs[k]? = some e ∧ e.name = name ∧ slot ∈ graph.sideMirrors k

def KnowsSideDatum (graph : Graph) (name : Text) : Prop := ∃ e ∈ graph.cfg.sideData.outputs, e.name = name

/-- What the result of a call has to say of the consumers. -/
structure SideDatumReported (graph : Graph) (name : Text) (datum : Datum α) (st st' : SideRun α) (ret : Int) : Prop where
  success : ret = 0 → graph.KnowsSideDatum name ∧ ∀ slot, graph.LinkedTo name slot → st'.slot slot = some datum
  refusal : (¬ graph.KnowsSideDatum name ∨ ∃ slot d, graph.LinkedTo name slot ∧ st.slot slot = some d ∧
      (d.IsEmpty = false ∨ Dtype.Validate datum ≠ 0)) → ret ≠ 0

/-- A side datum has the name, every consumer slot that is linked to one is still empty, and those of a second
one with the name hold the datum already, as an empty datum can be held. -/
structure SideDatumFits (graph : Graph) (name : Text) (datum : Datum α) (st : SideRun α) : Prop where
  known : graph.KnowsSideDatum name
  free : ∀ slot, graph.LinkedTo name slot → ∃ d, st.slot slot = some d ∧ d.IsEmpty = true
  others : ∀ (k k' : Nat) (e e' : EdgeInfo) slot, graph.cfg.sideData.outputs[k]? = some e → e.name = name →
    graph.cfg.sideData.outputs[k']? = some e' → e'.name = name → k < k' → slot ∈ graph.sideMirrors k' →
    st.slot slot = some datum

end Graph

section Delivery

variable {slots : SideSlots α} (datum : Datum α)

/-- An empty slot takes the datum, and one that is set keeps its own. -/
theorem set_spec {data : List (Datum α)} {id : Nat} (hid : id < data.length) :
    ∃ data' ret, InputSideDataHandler.Set (some data) id datum = .ok (data', ret) ∧ data'.length = data.length ∧
      (∀ j : Nat, j ≠ id → data'[j]? = data[j]?) ∧
      data'[id]? = if data[id].IsEmpty = true then some datum else some data[id] := by
  simp only [InputSideDataHandler.Set, List.getElem?_eq_getElem hid, Dtype.Validate, ne_eq, not_true_eq_false, if_false]
  by_cases hempty : data[id].IsEmpty = true
  · refine ⟨data.set id datum, 0, by rw [if_neg (by simp [hempty])], List.length_set, ?_, ?_⟩
    · intro j hj
      exact List.getElem?_set_ne (Ne.symm hj)
    · rw [if_pos hempty, List.getElem?_set_self hid]
  · refine ⟨data, -1, by rw [if_pos (by simpa using hempty)], rfl, fun _ _ => rfl, ?_⟩
    rw [if_neg hempty, List.getElem?_eq_getElem hid]

theorem setMirrors_spec {mirrors : List (Nat × Nat)} (hnd : mirrors.Nodup)
    (hin : ∀ m ∈ mirrors, ∃ data, slots m.1 = some data ∧ m.2 < data.length) :
    ∃ slots', OutputSideDatumImpl.setMirrors datum mirrors slots = .ok slots' ∧
      (∀ i, (slots' i).map List.length = (slots i).map List.length) ∧ (∀ s, s ∉ mirrors → slotOf slots' s = slotOf slots s) ∧
      ∀ s ∈ mirrors, ∀ d, slotOf slots s = some d → slotOf slots' s = some (if d.IsEmpty = true then datum else d) := by
  induction mirrors generalizing slots with
  | nil => exact ⟨slots, rfl, fun _ => rfl, fun _ _ => rfl, by simp⟩
  | cons m mirrors ih =>
    obtain ⟨node, id⟩ := m
    obtain ⟨hm, hnd'⟩ := List.nodup_cons.mp hnd
    obtain ⟨⟨data, hdata, hid⟩, hrest⟩ := List.forall_mem_cons.mp hin
    obtain ⟨data', ret, hset, hlen, hframe, hself⟩ := set_spec datum hid
    have hin' : ∀ m ∈ mirrors, ∃ data,
        Function.update slots node (some data') m.1 = some data ∧ m.2 < data.length := by
      intro m hm
      obtain ⟨data₀, hdata₀, hlt⟩ := hrest m hm
      by_cases hnode : m.1 = node
      · rw [hnode, Function.update_self]
        refine ⟨data', rfl, ?_⟩
        rw [hnode, hdata, Option.some.injEq] at hdata₀
        rw [hlen, hdata₀]
        exact hlt
      · rw [Function.update_of_ne hnode]
        exact ⟨data₀, hdata₀, hlt⟩
    have hother : ∀ s, s ≠ (node, id) → slotOf (Function.update slots node (some data')) s = slotOf slots s := by
      intro ⟨i, j⟩ hne
      unfold slotOf
      by_cases hi : i = node
      · subst hi
        have hj : j ≠ id := fun heq => hne (by rw [heq])
        simp only [Function.update_self, hdata, Option.bind_some, hframe j hj]
      · simp only [Function.update_of_ne hi]
    obtain ⟨slots', hloop, hlens, hout, hmem⟩ := ih hnd' hin'
    refine ⟨slots', ?_, ?_, ?_, ?_⟩
    · simp only [OutputSideDatumImpl.setMirrors, hdata, hset, hloop]
    · intro i
      rw [hlens]
      by_cases hi : i = node
      · rw [hi, Function.update_self, hdata, Option.map_some, Option.map_some, hlen]
      · rw [Function.update_of_ne hi]
    · intro s hs
      rw [List.mem_cons, not_or] at hs
      rw [hout s hs.2, hother s hs.1]
    · rw [List.forall_mem_cons]
      refine ⟨?_, ?_⟩
      · intro d hd
        rw [hout _ hm]
        simp only [slotOf, hdata, Option.bind_some, List.getElem?_eq_getElem hid, Option.some.injEq] at hd
        simp only [slotOf, Function.update_self, Option.bind_some, hself, hd]
        split_ifs <;> rfl
      · intro s hs d hd
        apply hmem s hs d
        rw [hother s fun heq => hm (heq ▸ hs)]
        exact hd

end Delivery

namespace Graph

section Initialised

variable {config : GraphConfig} {faults : List Fault} {graph : Graph}

theorem mem_sideMirrors (h : Initialize config = .ok (faults, graph)) {k : Nat} {slot : Nat × Nat} :
    slot ∈ graph.sideMirrors k ↔ ∃ info, graph.cfg.Nodes[slot.1]? = some info ∧
      slot.2 < info.Config.InputSideData.names.length ∧
      ∃ e, graph.cfg.sideData.inputs[info.inputSideDataBaseIndex + slot.2]? = some e ∧ e.upstreamId = k := by
  obtain ⟨_, _, hmirrors, _⟩ := initialize_mirrors h
  obtain ⟨i, id⟩ := slot
  simp only [sideMirrors, hmirrors, List.mem_filterMap, Option.ite_none_right_eq_some, Option.some.injEq]
  apply Iff.intro
  · intro ⟨⟨p, m⟩, hmem, hp, hm⟩
    subst hp hm
    exact mem_mirrorsOf.mp hmem
  · intro hslot
    exact ⟨(k, i, id), mem_mirrorsOf.mpr hslot, rfl, rfl⟩

theorem nodup_sideMirrors (h : Initialize config = .ok (faults, graph)) (k : Nat) : (graph.sideMirrors k).Nodup := by
  obtain ⟨_, _, hmirrors, _⟩ := initialize_mirrors h
  have hnd : graph.mirrors.sideData.Nodup := by
    rw [hmirrors]
    exact nodup_mirrorsOf.of_map _
  refine hnd.filterMap ?_
  intro ⟨p, m⟩ ⟨p', m'⟩ b hb hb'
  simp only [Option.mem_def, Option.ite_none_right_eq_some, Option.some.injEq] at hb hb'
  rw [hb.1, hb'.1, hb.2, hb'.2]

/-- A slot has one producer. -/
theorem sideMirrors_inj (h : Initialize config = .ok (faults, graph)) {k k' : Nat} {slot : Nat × Nat}
    (hk : slot ∈ graph.sideMirrors k) (hk' : slot ∈ graph.sideMirrors k') : k = k' := by
  obtain ⟨info, hinfo, _, e, he, hup⟩ := (mem_sideMirrors h).mp hk
  obtain ⟨info', hinfo', _, e', he', hup'⟩ := (mem_sideMirrors h).mp hk'
  rw [hinfo] at hinfo'
  cases hinfo'
  rw [he] at he'
  cases he'
  have hkk := hup.symm.trans hup'
  omega

/-- PrepareForRun prepares every node, unless one has a side datum that the graph does not know. -/
theorem sidePrepared_prepare (h : Initialize config = .ok (faults, graph)) (unset : Int)
    (hall : ∀ info ∈ graph.cfg.Nodes, ¬ Missing (graph.cfg.sideData.outputs.map EdgeInfo.name) info) :
    graph.SidePrepared (graph.prepareSideData unset : SideSlots α) := by
  obtain ⟨_, hnodes, _, _⟩ := initialize_mirrors h
  intro i info hinfo
  have hnode : graph.nodes[i]? = some ⟨i, info, none⟩ := by
    rw [hnodes, List.getElem?_map, List.getElem?_zipIdx, hinfo, Option.map_some, Option.map_some, Nat.zero_add]
  have hin : ∀ name ∈ info.Config.InputSideData.names, ∃ d : Datum α,
      (currentSideData graph.cfg unset).lookup name = some d := by
    intro name hname
    have hknown : name ∈ graph.cfg.sideData.outputs.map EdgeInfo.name := by
      by_contra hno
      exact hall info (List.mem_of_getElem? hinfo) ⟨name, hname, hno⟩
    obtain ⟨e, he, hen⟩ := List.mem_map.mp hknown
    exact ⟨⟨none, unset⟩, (GoMap.lookup_foldl_insert (fun _ _ _ _ _ => rfl)).mpr (Or.inl ⟨e, he, hen, rfl⟩)⟩
  obtain ⟨data, hdata⟩ := Loops.exists_mapM_some hin
  refine ⟨data, ?_, (Loops.mapM_eq_some_iff.mp hdata).length_eq.symm⟩
  simp only [prepareSideData, hnode, Option.bind_some, InputSideDataHandler.PrepareForRun, hdata]

theorem setNamed_cases (graph : Graph) (name : Text) (datum : Datum α) (st : SideRun α) (outs : List EdgeInfo)
    (n : Nat) :
    (¬ ∃ e ∈ outs, e.name = name) ∧ graph.setNamed name datum (outs.zipIdx n) st = .ok st ∨
      ∃ (k : Nat) (e : EdgeInfo), outs[k]? = some e ∧ e.name = name ∧
        (∀ (j : Nat) (e' : EdgeInfo), j < k → outs[j]? = some e' → e'.name ≠ name) ∧
        graph.setNamed name datum (outs.zipIdx n) st =
          OutputSideDatumImpl.Set (n + k) (graph.sideMirrors (n + k)) datum st := by
  induction outs generalizing n with
  | nil => exact Or.inl ⟨by simp, rfl⟩
  | cons e outs ih =>
    rw [List.zipIdx_cons, setNamed]
    by_cases hname : name = e.name
    · refine Or.inr ⟨0, e, rfl, hname.symm, ?_, by rw [if_pos hname, Nat.add_zero]⟩
      intro j e' hj
      omega
    · rw [if_neg hname]
      obtain ⟨hno, hst⟩ | ⟨k, e', hk, he', hfirst, hset⟩ := ih (n + 1)
      · refine Or.inl ⟨?_, hst⟩
        intro ⟨f, hf, hfname⟩
        rcases List.mem_cons.mp hf with heq | hmem
        · exact hname (heq ▸ hfname.symm)
        · exact hno ⟨f, hmem, hfname⟩
      · refine Or.inr ⟨k + 1, e', hk, he', ?_, ?_⟩
        · intro j f hj hf
          cases j with
          | zero =>
            cases Option.some.inj hf
            exact Ne.symm hname
          | succ j => exact hfirst j f (by omega) hf
        · rw [hset, Nat.add_right_comm, Nat.add_assoc]

/-- A node that is prepared has a slot for every mirror there is. -/
theorem SidePrepared.slots (h : Initialize config = .ok (faults, graph)) {slots : SideSlots α}
    (hprep : graph.SidePrepared slots) (k : Nat) :
    ∀ m ∈ graph.sideMirrors k, ∃ data, slots m.1 = some data ∧ m.2 < data.length := by
  intro m hm
  obtain ⟨info, hinfo, hlt, _⟩ := (mem_sideMirrors h).mp hm
  obtain ⟨data, hdata, hlen⟩ := hprep m.1 info hinfo
  exact ⟨data, hdata, hlen ▸ hlt⟩

/-- A graph that is prepared stays so, whatever it is given. -/
theorem SidePrepared.addDatum (h : Initialize config = .ok (faults, graph)) {st st' : SideRun α}
    (hprep : graph.SidePrepared st.slots) {name : Text} {datum : Datum α} {ret : Int}
    (hrun : graph.AddDatumToInputSideData name datum st = .ok (st', ret)) : graph.SidePrepared st'.slots := by
  obtain ⟨_, hst⟩ | ⟨k, e, _, _, _, hst⟩ := setNamed_cases graph name datum st graph.cfg.sideData.outputs 0
  · rw [AddDatumToInputSideData, hst] at hrun
    cases hrun
    exact hprep
  · rw [Nat.zero_add] at hst
    obtain ⟨slots', hset, hlens, _⟩ := setMirrors_spec datum (nodup_sideMirrors h k) (hprep.slots h k)
    rw [AddDatumToInputSideData, hst, OutputSideDatumImpl.Set, hset] at hrun
    cases hrun
    intro i info hinfo
    obtain ⟨data, hdata, hlen⟩ := hprep i info hinfo
    have hi := hlens i
    rw [hdata] at hi
    obtain ⟨data', hdata', hlen'⟩ := Option.map_eq_some_iff.mp hi
    exact ⟨data', hdata', hlen'.trans hlen⟩

/-- On a graph that is initialised and prepared the call returns zero whatever happens, so that it reports the
truth exactly when the side datum is known and all its consumers take it. -/
theorem addDatum_reported_iff (config : GraphConfig) (faults : List Fault) (graph : Graph)
    (h : Initialize config = .ok (faults, graph)) (st : SideRun α) (hprep : graph.SidePrepared st.slots)
    (name : Text) (datum : Datum α) :
    ∃ st' ret, graph.AddDatumToInputSideData name datum st = .ok (st', ret) ∧
      (graph.SideDatumReported name datum st st' ret ↔ graph.SideDatumFits name datum st) := by
  have hin := hprep.slots h
  have hslot : ∀ s, graph.LinkedTo name s → ∃ d, st.slot s = some d := by
    intro s ⟨k, _, _, _, hs⟩
    obtain ⟨data, hdata, hlt⟩ := hin k s hs
    exact ⟨data[s.2], by simp [SideRun.slot, slotOf, hdata, hlt]⟩
  obtain ⟨hno, hrun⟩ | ⟨k, e, hk, he, hfirst, hrun⟩ := setNamed_cases graph name datum st graph.cfg.sideData.outputs 0
  · refine ⟨st, 0, by rw [AddDatumToInputSideData, hrun]; rfl, ?_⟩
    apply Iff.intro
    · intro hrep
      exact absurd (hrep.success rfl).1 hno
    · intro hfit
      exact absurd hfit.known hno
  · rw [Nat.zero_add] at hrun
    obtain ⟨slots', hset, _, hout, hmem⟩ := setMirrors_spec datum (nodup_sideMirrors h k) (hin k)
    have hknown : graph.KnowsSideDatum name := ⟨e, List.mem_of_getElem? hk, he⟩
    refine ⟨⟨Function.update st.datum k datum, slots'⟩, 0, ?_, ?_⟩
    · rw [AddDatumToInputSideData, hrun, OutputSideDatumImpl.Set, hset]
      rfl
    · apply Iff.intro
      · intro hrep
        refine ⟨hknown, ?_, ?_⟩
        · intro s hs
          obtain ⟨d, hd⟩ := hslot s hs
          refine ⟨d, hd, ?_⟩
          by_contra hset
          exact hrep.refusal (Or.inr ⟨s, d, hs, hd, Or.inl (by simpa using hset)⟩) rfl
        · intro j j' f f' s hj hf hj' hf' hlt hs
          have hafter := (hrep.success rfl).2 s ⟨j', f', hj', hf', hs⟩
          have hkept : slotOf slots' s = slotOf st.slots s := by
            apply hout
            intro hsk
            have hjk := sideMirrors_inj h hs hsk
            exact hfirst j f (by omega) hj hf
          exact hkept.symm.trans hafter
      · intro hfit
        refine ⟨fun _ => ⟨hknown, ?_⟩, ?_⟩
        · intro s hlinked
          obtain ⟨j, f, hj, hf, hs⟩ := hlinked
          by_cases hsk : s ∈ graph.sideMirrors k
          · obtain ⟨d, hd, hempty⟩ := hfit.free s ⟨j, f, hj, hf, hs⟩
            have hafter := hmem s hsk d hd
            rwa [if_pos hempty] at hafter
          · have hlt : k < j := by
              by_contra hge
              rcases Nat.lt_or_eq_of_le (Nat.le_of_not_lt hge) with hjk | hjk
              · exact hfirst j f hjk hj hf
              · exact hsk (hjk ▸ hs)
            exact (hout s hsk).trans (hfit.others k j e f s hk he hj hf hlt hs)
        · intro hbad
          obtain hunknown | ⟨s, d, hs, hd, hset | hval⟩ := hbad
          · exact absurd hknown hunknown
          · obtain ⟨d', hd', hempty⟩ := hfit.free s hs
            rw [hd, Option.some.injEq] at hd'
            rw [hd', hempty] at hset
            cases hset
          · exact absurd rfl hval

end Initialised

/-- A node that has the side datum of the graph, and one that has it too. -/
def twoReaders : GraphConfig :=
  ⟨[⟨['n'], ['t'], [], [['s']], [['d']], [], []⟩, ⟨['m'], ['t'], [['s']], [], [['d']], [], []⟩], [], [], [['d']]⟩

/-- The slot of the second node is set. -/
def secondSet : SideRun Nat := ⟨fun _ => ⟨none, 0⟩, fun i => if i = 0 then some [⟨none, 0⟩] else some [⟨some 1, 3⟩]⟩

theorem addDatum_reported_iff_twoReaders : ∃ faults graph, Initialize twoReaders = .ok (faults, graph) ∧
    ∃ st' ret, graph.AddDatumToInputSideData ['d'] ⟨some 2, 4⟩ secondSet = .ok (st', ret) ∧
      (graph.SideDatumReported ['d'] ⟨some 2, 4⟩ secondSet st' ret ↔ graph.SideDatumFits ['d'] ⟨some 2, 4⟩ secondSet) := by
  refine ⟨_, _, rfl, addDatum_reported_iff twoReaders _ _ rfl secondSet ?_ _ _⟩
  intro i info hinfo
  match i with
  | 0 =>
    cases hinfo
    exact ⟨_, rfl, rfl⟩
  | 1 =>
    cases hinfo
    exact ⟨_, rfl, rfl⟩
  | i + 2 => cases hinfo

/-- The second consumer refuses the datum, the first takes it, and the call returns zero. -/
theorem twoReaders_refused : ∃ faults graph, Initialize twoReaders = .ok (faults, graph) ∧
    ∃ st', graph.AddDatumToInputSideData ['d'] ⟨some 2, 4⟩ secondSet = .ok (st', 0) ∧
      st'.slot (0, 0) = some ⟨some 2, 4⟩ ∧ st'.slot (1, 0) = some ⟨some 1, 3⟩ ∧
      ¬ graph.SideDatumReported ['d'] ⟨some 2, 4⟩ secondSet st' 0 := by
  refine ⟨_, _, rfl, _, rfl, rfl, rfl, ?_⟩
  intro hrep
  refine hrep.refusal (Or.inr ⟨(1, 0), ⟨some 1, 3⟩, ⟨0, _, rfl, rfl, ?_⟩, rfl, Or.inl rfl⟩) rfl
  decide

end Graph

end Dni.Cpp
