import Dni.SideData

namespace Dni

open GoMap

variable {α : Type}

theorem lookup_nameMap (names : List String) {name : String} {pos : Nat} :
    (nameMap names).lookup name = some pos → names[pos]? = some name := lookup_places

theorem mem_nameMap {names : List String} {name : String} : name ∈ nameMap names ↔ name ∈ names := mem_places

/-- The slice of the names, with some of its slots set. -/
structure DataSlice.Of (ds : DataSlice α) (names : List String) : Prop where
  nameMap : ds.nameMap = Dni.nameMap names
  length : ds.values.length = names.length

/-- What stands in the slot of a name. -/
def DataSlice.slot (ds : DataSlice α) (name : String) : Option (DataSpec α) :=
  (ds.nameMap.lookup name).bind fun pos => ds.values[pos]?.join

namespace DataSlice

variable {ds : DataSlice α} {names : List String}

theorem newDataSlice_of (names : List String) : (newDataSlice α names).Of names :=
  ⟨rfl, List.length_replicate⟩

theorem Of.set (h : ds.Of names) (name : String) (data : DataSpec α) : (ds.set name data).Of names := by
  unfold DataSlice.set
  split
  · exact h
  · exact ⟨h.nameMap, by rw [List.length_set, h.length]⟩

theorem Of.slot_set (h : ds.Of names) {name name' : String} {data : DataSpec α} :
    (ds.set name data).slot name' = if name' = name ∧ name ∈ names then some data else ds.slot name' := by
  unfold DataSlice.set
  split
  next hnone =>
    have hno : name ∉ names := by
      rw [← mem_nameMap, ← h.nameMap]
      exact AList.lookup_eq_none.mp hnone
    rw [if_neg fun hc => hno hc.2]
  next pos hpos =>
    have hget := lookup_nameMap names (h.nameMap ▸ hpos)
    have hlt : pos < ds.values.length := by
      rw [h.length]
      exact (List.getElem?_eq_some_iff.mp hget).1
    by_cases hn : name' = name
    · subst hn
      have hin : name' ∈ names := List.mem_of_getElem? hget
      rw [if_pos ⟨rfl, hin⟩, slot, hpos]
      simp [hlt]
    · rw [if_neg fun hc => hn hc.1, slot, slot]
      cases hpos' : ds.nameMap.lookup name' with
      | none => rfl
      | some pos' =>
        have hne : pos ≠ pos' := by
          intro he
          have hget' := lookup_nameMap names (h.nameMap ▸ hpos')
          rw [← he, hget] at hget'
          exact hn (Option.some.inj hget').symm
        simp [List.getElem?_set_ne hne]

/-- The slot of a name is the one at its place. -/
theorem Of.values_eq (h : ds.Of names) (hnd : names.Nodup) {name : String} {pos : Nat}
    (hpos : names[pos]? = some name) : ds.values[pos]? = some (ds.slot name) := by
  have hlt := (List.getElem?_eq_some_iff.mp hpos).1
  have hplace : (Dni.nameMap names).lookup name = some pos := lookup_places_of_nodup hnd hpos
  rw [slot, h.nameMap, hplace]
  have hv : pos < ds.values.length := h.length ▸ hlt
  simp [List.getElem?_eq_getElem hv]

end DataSlice

namespace SideState

variable {nodes : Streams} {st st' : SideState α} {clone : DataSpec α → DataSpec α}

/-- Every node's slots are those of its side data. -/
def Shaped (nodes : Streams) (st : SideState α) : Prop := ∀ b node, nodes[b]? = some node → (st.inputs b).Of node.1

theorem Shaped.set (h : Shaped nodes st) (c : Consumer) (name : String) (data : DataSpec α) :
    Shaped nodes (st.set c name data) := by
  intro b node hb
  cases c with
  | node b' =>
    show (Function.update st.inputs b' _ b).Of node.1
    rw [Function.update_apply]
    split
    next he =>
      subst he
      exact (h b node hb).set name data
    next => exact h b node hb
  | graphOutput => exact h b node hb

theorem Shaped.slot_set (h : Shaped nodes st) {c : Consumer} {name name' : String} {data : DataSpec α}
    {b : Nat} {node : List String × List String} (hb : nodes[b]? = some node) :
    ((st.set c name data).inputs b).slot name' =
      if c = .node b ∧ name' = name ∧ name ∈ node.1 then some data else (st.inputs b).slot name' := by
  cases c with
  | node b' =>
    show (Function.update st.inputs b' _ b).slot name' = _
    rw [Function.update_apply]
    split
    next he =>
      subst he
      rw [(h b node hb).slot_set]
      simp
    next he =>
      rw [if_neg]
      intro hc
      exact he (Consumer.node.inj hc.1).symm
  | graphOutput => simp [SideState.set]

/-- What AddData sets in the slot of a node: each consumer but the first gets a clone of what the one before it
got. -/
def handed (clone : DataSpec α → DataSpec α) (next : GoMap String (List Consumer)) (name : String) (b : Nat)
    (data : DataSpec α) : DataSpec α :=
  clone^[((next.lookup name).getD []).idxOf (.node b)] data

/-- What AddData leaves in the slots: a clone in those of the consumers, and the others as they were. -/
theorem setAll_spec (clone : DataSpec α → DataSpec α) {name : String} {cs : List Consumer} (hnd : cs.Nodup) (data : DataSpec α)
    (h : Shaped nodes st) : Shaped nodes (setAll clone name cs data st) ∧
      ∀ b node name', nodes[b]? = some node →
        (name' = name ∧ .node b ∈ cs ∧ name ∈ node.1 →
          ((setAll clone name cs data st).inputs b).slot name' = some (clone^[cs.idxOf (.node b)] data)) ∧
        (¬ (name' = name ∧ .node b ∈ cs) →
          ((setAll clone name cs data st).inputs b).slot name' = (st.inputs b).slot name') := by
  induction cs generalizing data st with
  | nil => exact ⟨h, fun b node name' hb => ⟨fun hc => (nomatch hc.2.1), fun _ => rfl⟩⟩
  | cons c cs ih =>
    obtain ⟨hc, hnd⟩ := List.nodup_cons.mp hnd
    obtain ⟨hshape, hslots⟩ := ih hnd (clone data) (h.set c name data)
    refine ⟨hshape, fun b node name' hb => ⟨fun hin => ?_, fun hout => ?_⟩⟩
    · obtain ⟨hn, hmem, hname⟩ := hin
      obtain hhead | htail := List.mem_cons.mp hmem
      · have hno : ¬ (name' = name ∧ .node b ∈ cs) := fun hx => hc (hhead ▸ hx.2)
        rw [setAll, (hslots b node name' hb).2 hno, h.slot_set hb, if_pos ⟨hhead.symm, hn, hname⟩, hhead,
          List.idxOf_cons_self]
        rfl
      · have hne : c ≠ .node b := fun he => hc (he ▸ htail)
        rw [List.idxOf_cons_ne _ hne]
        exact (hslots b node name' hb).1 ⟨hn, htail, hname⟩
    · have hno : ¬ (name' = name ∧ .node b ∈ cs) := fun hx => hout ⟨hx.1, List.mem_cons_of_mem _ hx.2⟩
      rw [setAll, (hslots b node name' hb).2 hno, h.slot_set hb, if_neg]
      exact fun hx => hout ⟨hx.2.1, hx.1 ▸ List.mem_cons_self⟩

/-- The same of AddData, by the map of consumers. -/
theorem addData_spec (clone : DataSpec α → DataSpec α) {next : GoMap String (List Consumer)} {name : String}
    (hnd : ((next.lookup name).getD []).Nodup) (data : DataSpec α) (h : Shaped nodes st) :
    Shaped nodes ((addData clone next data name st).toOption.getD st) ∧
      ∀ b node name', nodes[b]? = some node →
        (name' = name ∧ .node b ∈ (next.lookup name).getD [] ∧ name ∈ node.1 →
          (((addData clone next data name st).toOption.getD st).inputs b).slot name' =
            some (handed clone next name b data)) ∧
        (¬ (name' = name ∧ .node b ∈ (next.lookup name).getD []) →
          (((addData clone next data name st).toOption.getD st).inputs b).slot name' = (st.inputs b).slot name') := by
  unfold addData
  cases hl : next.lookup name with
  | none => exact ⟨h, fun b node name' hb => ⟨fun hc => (nomatch hc.2.1), fun _ => rfl⟩⟩
  | some consumers =>
    simp only [handed, hl]
    rw [hl] at hnd
    exact setAll_spec clone hnd data h

/-- What AddAllData leaves in the slots. -/
theorem addAllData_spec {next : GoMap String (List Consumer)}
    (hnd : ∀ name, ((next.lookup name).getD []).Nodup) {outputs : List (DataSpec α)}
    {es : List (String × Nat)} (hes : (es.map Prod.fst).Nodup) (h : Shaped nodes st)
    (hst : addAllData clone next outputs es st = some st') : Shaped nodes st' ∧
      ∀ b node name, nodes[b]? = some node →
        (∀ id, (name, id) ∈ es → .node b ∈ (next.lookup name).getD [] → name ∈ node.1 →
          ∃ data, outputs[id]? = some data ∧ (st'.inputs b).slot name = some (handed clone next name b data)) ∧
        (¬ (name ∈ es.map Prod.fst ∧ .node b ∈ (next.lookup name).getD []) →
          (st'.inputs b).slot name = (st.inputs b).slot name) := by
  induction es generalizing st with
  | nil =>
    cases hst
    exact ⟨h, fun b node name hb => ⟨fun id hid => (nomatch hid), fun _ => rfl⟩⟩
  | cons e es ih =>
    obtain ⟨sidedata, i⟩ := e
    rw [List.map_cons, List.nodup_cons] at hes
    obtain ⟨hnew, hes⟩ := hes
    rw [addAllData] at hst
    cases hout : outputs[i]? with
    | none =>
      rw [hout] at hst
      cases hst
    | some data =>
      rw [hout] at hst
      obtain ⟨hshape, hslots⟩ := addData_spec clone (hnd sidedata) data h
      have hrest : addAllData clone next outputs es ((addData clone next data sidedata st).toOption.getD st) =
          some st' := by
        simp only at hst
        split at hst
        next hd =>
          rw [hd]
          exact hst
        next hd =>
          rw [hd]
          exact hst
      obtain ⟨hshape', hslots'⟩ := ih hes hshape hrest
      refine ⟨hshape', fun b node name hb => ⟨fun id hid hmem hname => ?_, fun hno => ?_⟩⟩
      · obtain hhead | htail := List.mem_cons.mp hid
        · obtain ⟨hn, hi⟩ := Prod.mk.inj hhead
          subst hn hi
          refine ⟨data, hout, ?_⟩
          rw [(hslots' b node name hb).2 fun hx => hnew hx.1, (hslots b node name hb).1 ⟨rfl, hmem, hname⟩]
        · exact (hslots' b node name hb).1 id htail hmem hname
      · rw [(hslots' b node name hb).2 fun hx => hno ⟨List.mem_cons_of_mem _ hx.1, hx.2⟩,
          (hslots b node name hb).2 fun hx => hno ⟨by simp [hx.1], hx.1 ▸ hx.2⟩]

/-- What the graph inputs leave in the slots. -/
theorem addGraphInputs_spec (clone : DataSpec α → DataSpec α) {next : GoMap String (List Consumer)}
    (hnd : ∀ name, ((next.lookup name).getD []).Nodup) {given : GoMap String α} {names : List String}
    (hgiven : ∀ name ∈ names, name ∈ given) (hnext : ∀ name ∈ names, name ∈ next) (h : Shaped nodes st) :
    ∃ st', addGraphInputs clone next given names st = .ok st' ∧ Shaped nodes st' ∧
      ∀ b node name, nodes[b]? = some node → name ∈ node.1 →
        ((∃ a, given.lookup name = some a ∧
              (st.inputs b).slot name = some (handed clone next name b ⟨name, some a⟩)) ∨
            name ∈ names ∧ .node b ∈ (next.lookup name).getD [] →
          ∃ a, given.lookup name = some a ∧
            (st'.inputs b).slot name = some (handed clone next name b ⟨name, some a⟩)) := by
  induction names generalizing st with
  | nil => exact ⟨st, rfl, h, fun b node name hb _ hc => hc.resolve_right fun hx => nomatch hx.1⟩
  | cons sidedata names ih =>
    obtain ⟨a, ha⟩ := mem_iff_lookup.mp (hgiven sidedata (by simp))
    obtain ⟨consumers, hcons⟩ := mem_iff_lookup.mp (hnext sidedata (by simp))
    have hone := hnd sidedata
    rw [hcons] at hone
    obtain ⟨hshape, hslots⟩ := setAll_spec clone hone ⟨sidedata, some a⟩ h
    obtain ⟨st', hst', hshape', hslots'⟩ := ih (fun name hn => hgiven name (by simp [hn]))
      (fun name hn => hnext name (by simp [hn])) hshape
    refine ⟨st', ?_, hshape', fun b node name hb hname hc => hslots' b node name hb hname ?_⟩
    · rw [addGraphInputs, ha]
      simp only [addData, hcons]
      exact hst'
    · by_cases hin : name = sidedata ∧ .node b ∈ consumers
      · obtain ⟨hn, hmem⟩ := hin
        subst hn
        refine Or.inl ⟨a, ha, ?_⟩
        rw [handed, hcons]
        exact (hslots b node name hb).1 ⟨rfl, hmem, hname⟩
      · obtain hold | ⟨hnew, hmem⟩ := hc
        · rw [(hslots b node name hb).2 hin]
          exact Or.inl hold
        · obtain hn | hnew := List.mem_cons.mp hnew
          · rw [hn, hcons] at hmem
            exact absurd ⟨hn, hmem⟩ hin
          · exact Or.inr ⟨hnew, hmem⟩

variable {gInputs gOutputs : List String} {w : Wiring} {given : GoMap String α}
  {outputNames : Nat → List String}
  {opens : Nat → List (Option (DataSpec α)) → Except String (List (DataSpec α))}

/-- The slots of the graph inputs are set. -/
def GraphSet (gInputs : List String) (nodes : Streams) (w : Wiring) (clone : DataSpec α → DataSpec α)
    (given : GoMap String α) (st : SideState α) : Prop :=
  ∀ b node name, nodes[b]? = some node → name ∈ node.1 → name ∈ gInputs →
    ∃ a, given.lookup name = some a ∧ (st.inputs b).slot name = some (handed clone w.source name b ⟨name, some a⟩)

/-- The slots that the opened nodes feed are set to what their Open left. -/
def NodesSet (gInputs : List String) (nodes : Streams) (w : Wiring) (clone : DataSpec α → DataSpec α)
    (before : List (OpenCall α)) (st : SideState α) : Prop :=
  ∀ b node name, nodes[b]? = some node → name ∈ node.1 → name ∉ gInputs →
    ∀ c ∈ before, ∀ (producer : List String × List String) (id : Nat), nodes[c.nid]? = some producer →
      producer.2[id]? = some name → ∃ outputs data, c.outputs = .ok outputs ∧ outputs[id]? = some data ∧
        (st.inputs b).slot name = some (handed clone (w.node c.nid) name b data)

/-- Every slot that a call of Open finds was set by its source. -/
def Supplied (gInputs : List String) (nodes : Streams) (w : Wiring) (clone : DataSpec α → DataSpec α)
    (given : GoMap String α) (before : List (OpenCall α)) (call : OpenCall α) : Prop :=
  ∀ node : List String × List String, nodes[call.nid]? = some node → call.inputs.length = node.1.length ∧
    ∀ (pos : Nat) (name : String), node.1[pos]? = some name →
    name ∈ gInputs ∧ (∃ a, given.lookup name = some a ∧
        call.inputs[pos]? = some (some (handed clone w.source name call.nid ⟨name, some a⟩))) ∨
      name ∉ gInputs ∧ ∃ c ∈ before, ∃ (producer : List String × List String) (id : Nat) (outputs : _) (data : _),
        nodes[c.nid]? = some producer ∧ producer.2[id]? = some name ∧ c.outputs = .ok outputs ∧
          outputs[id]? = some data ∧
          call.inputs[pos]? = some (some (handed clone (w.node c.nid) name call.nid data))

/-- A node whose sources are open finds its slots set. -/
theorem supplied_of_set (hchk : Checked gInputs gOutputs nodes) (hshape : Shaped nodes st)
    (hgraph : GraphSet gInputs nodes w clone given st) {before : List (OpenCall α)}
    (hnodes : NodesSet gInputs nodes w clone before st) {nid : Nat}
    (hbefore : ∀ a s, Reads gInputs nodes s a nid → ∃ c ∈ before, c.nid = a)
    (outputs : Except String (List (DataSpec α))) :
    Supplied gInputs nodes w clone given before ⟨nid, (st.inputs nid).values, outputs⟩ := by
  intro node hnode
  refine ⟨(hshape nid node hnode).length, fun pos name hpos => ?_⟩
  have hname : name ∈ node.1 := List.mem_of_getElem? hpos
  have hmem : node ∈ nodes := List.mem_of_getElem? hnode
  have hslot := (hshape nid node hnode).values_eq (hchk.inputs node hmem) hpos
  by_cases hg : name ∈ gInputs
  · obtain ⟨a, ha, hk⟩ := hgraph nid node name hnode hname hg
    exact Or.inl ⟨hg, a, ha, by rw [hslot, hk]⟩
  · obtain ⟨a, producer, hp, hout⟩ := mem_outputs_iff.mp ((hchk.sources node hmem name hname).resolve_left hg)
    obtain ⟨c, hc, hca⟩ := hbefore a name ⟨hg, ⟨node, hnode, hname⟩, producer, hp, hout⟩
    subst hca
    obtain ⟨id, hid⟩ := List.mem_iff_getElem?.mp hout
    obtain ⟨outs, data, houts, hdata, hk⟩ := hnodes nid node name hnode hname hg c hc producer id hp hid
    exact Or.inr ⟨hg, c, hc, producer, id, outs, data, hp, hid, houts, hdata, by rw [hslot, hk]⟩

/-- The output side data of an open node are passed on, and those of the others stay. -/
theorem set_of_addAllData (hchk : Checked gInputs gOutputs nodes) (hw : Wired gInputs gOutputs nodes w)
    (hshape : Shaped nodes st) (hgraph : GraphSet gInputs nodes w clone given st) {before : List (OpenCall α)}
    (hnodes : NodesSet gInputs nodes w clone before st) {nid : Nat} (hnew : ∀ c ∈ before, c.nid ≠ nid)
    {self : List String × List String} (hself : nodes[nid]? = some self)
    {inputs : List (Option (DataSpec α))} {outputs : List (DataSpec α)}
    (hst : addAllData clone (w.node nid) outputs self.2.zipIdx st = some st') :
    Shaped nodes st' ∧ GraphSet gInputs nodes w clone given st' ∧
      NodesSet gInputs nodes w clone (before ++ [⟨nid, inputs, .ok outputs⟩]) st' := by
  have hpresent : Present nodes (.node nid) := (List.getElem?_eq_some_iff.mp hself).1
  have hselfnd : self.2.Nodup := (List.nodup_flatMap.mp hchk.outputs).1 self (List.mem_of_getElem? hself)
  obtain ⟨hshape', hslots⟩ := addAllData_spec (fun name => hw.nodup (.node nid) name hpresent)
    (by rwa [List.zipIdx_map_fst]) hshape hst
  have hconsumers : ∀ b name, .node b ∈ ((w.node nid).lookup name).getD [] ↔
      Takes gOutputs nodes name (.node b) ∧ Source gInputs nodes name (.node nid) (.node b) :=
    fun b name => hw.mem (.node nid) name (.node b) hpresent
  refine ⟨hshape', fun b node name hb hname hg => ?_, fun b node name hb hname hg c hc producer id hp hid => ?_⟩
  · obtain ⟨a, ha, hk⟩ := hgraph b node name hb hname hg
    refine ⟨a, ha, ?_⟩
    rw [(hslots b node name hb).2 fun hx => ((hconsumers b name).mp hx.2).2.2 hg, hk]
  · obtain hold | hself' := List.mem_append.mp hc
    · obtain ⟨outs, data, houts, hdata, hk⟩ := hnodes b node name hb hname hg c hold producer id hp hid
      refine ⟨outs, data, houts, hdata, ?_⟩
      rw [(hslots b node name hb).2 fun hx => ?_, hk]
      -- one node outputs the name
      obtain ⟨p, -, -, hone⟩ := hchk.source_unique ((hconsumers b name).mp hx.2).1
      have h₁ := hone _ ((hconsumers b name).mp hx.2).2
      have h₂ := hone (.node c.nid) ⟨⟨producer, hp, List.mem_of_getElem? hid⟩, hg⟩
      exact hnew c hold (Producer.node.inj (h₂.trans h₁.symm))
    · rw [List.mem_singleton] at hself'
      subst hself'
      rw [hself, Option.some.injEq] at hp
      subst hp
      have hmem : .node b ∈ ((w.node nid).lookup name).getD [] := (hconsumers b name).mpr
        ⟨⟨node, hb, hname⟩, ⟨self, hself, List.mem_of_getElem? hid⟩, hg⟩
      obtain ⟨data, hdata, hk⟩ := (hslots b node name hb).1 id
        (List.mem_zipIdx_iff_getElem?.mpr hid) hmem hname
      exact ⟨outputs, data, rfl, hdata, hk⟩

/-- Every call that the loop over the sorted nodes makes finds its slots set. -/
theorem openNodes_spec (hchk : Checked gInputs gOutputs nodes) (hw : Wired gInputs gOutputs nodes w)
    (hnames : ∀ a node, nodes[a]? = some node → outputNames a = node.2) {sorted : List Nat}
    (hperm : sorted.Perm (List.range nodes.length))
    (hord : ∀ s a b, Reads gInputs nodes s a b → ∃ pre post, sorted = pre ++ b :: post ∧ a ∈ pre)
    {before : List (OpenCall α)} {rest : List Nat} (hsorted : sorted = before.map OpenCall.nid ++ rest)
    (hshape : Shaped nodes st) (hgraph : GraphSet gInputs nodes w clone given st)
    (hnodes : NodesSet gInputs nodes w clone before st) {pre post : List (OpenCall α)} {call : OpenCall α}
    (hlog : (openNodes clone outputNames w.node opens rest st).1 = pre ++ call :: post) :
    Supplied gInputs nodes w clone given (before ++ pre) call := by
  induction rest generalizing before st pre with
  | nil => simp [openNodes] at hlog
  | cons nid rest ih =>
    have hnd : sorted.Nodup := hperm.nodup_iff.mpr List.nodup_range
    have hlt : nid < nodes.length := by
      rw [← List.mem_range, ← hperm.mem_iff, hsorted]
      simp
    have hself : nodes[nid]? = some nodes[nid] := List.getElem?_eq_getElem hlt
    have hnew : ∀ c ∈ before, c.nid ≠ nid := by
      intro c hc he
      rw [hsorted, List.nodup_append] at hnd
      exact hnd.2.2 c.nid (List.mem_map_of_mem hc) nid List.mem_cons_self he
    have hbefore : ∀ a s, Reads gInputs nodes s a nid → ∃ c ∈ before, c.nid = a := by
      intro a s hr
      obtain ⟨front, back, hsplit, ha⟩ := hord s a nid hr
      have hfront : front = before.map OpenCall.nid := by
        rw [hsplit] at hnd hsorted
        obtain ⟨-, hback, hapart⟩ := List.nodup_append.mp hnd
        have hin : nid ∉ front := fun hin => hapart nid hin nid List.mem_cons_self rfl
        exact ((List.append_cons_inj_of_notMem hin (List.nodup_cons.mp hback).1).mp hsorted).1
      rw [hfront] at ha
      exact List.mem_map.mp ha
    have hfirst := fun outputs => supplied_of_set hchk hshape hgraph hnodes hbefore outputs
    have hsingle : ∀ outputs : Except String (List (DataSpec α)),
        [⟨nid, (st.inputs nid).values, outputs⟩] = pre ++ call :: post →
          Supplied gInputs nodes w clone given (before ++ pre) call := by
      intro outputs hone
      obtain ⟨hpre, hcall⟩ := (List.singleton_eq_append_iff.mp hone).resolve_right (by simp)
      cases hcall
      rw [hpre, List.append_nil]
      exact hfirst outputs
    simp only [openNodes, hnames nid _ hself] at hlog
    split at hlog
    next => exact hsingle _ hlog
    next outputs houts =>
      split at hlog
      next => exact hsingle _ hlog
      next st' hst =>
        cases pre with
        | nil =>
          cases hlog
          rw [List.append_nil]
          exact hfirst _
        | cons first pre =>
          obtain ⟨hhead, htail⟩ := List.cons.inj hlog
          obtain ⟨hshape', hgraph', hnodes'⟩ := @set_of_addAllData α nodes st st' clone gInputs gOutputs w given
            hchk hw hshape hgraph before hnodes nid hnew nodes[nid] hself (st.inputs nid).values outputs hst
          have hrest : Supplied gInputs nodes w clone given
              ((before ++ [⟨nid, (st.inputs nid).values, .ok outputs⟩]) ++ pre) call :=
            ih (by simpa using hsorted) hshape' hgraph' hnodes' htail
          rw [← hhead, houts]
          simpa using hrest

end SideState

theorem GraphUnit.newSideState_shaped (gu : GraphUnit) : SideState.Shaped gu.sideData (gu.newSideState α) := by
  intro b node hb
  rw [sideData, List.getElem?_map, Option.map_eq_some_iff] at hb
  obtain ⟨unit, hunit, he⟩ := hb
  subst he
  simp only [GraphUnit.newSideState, hunit]
  exact DataSlice.newDataSlice_of _

/-- Each slot that a call of Open finds was set by its source: by the graph input, or by an earlier Open, to what AddData
hands on of the value that this Open left. -/
def GraphUnit.SlotsSet (gu : GraphUnit) (w : Wiring) (clone : DataSpec α → DataSpec α) (gInputSideData : GoMap String α)
    (pre : List (OpenCall α)) (call : OpenCall α) (node : NodeUnit) : Prop :=
  call.inputs.length = node.inputSideData.name.length ∧
    ∀ (pos : Nat) (name : String), node.inputSideData.name[pos]? = some name →
      name ∈ gu.graphInputSideData.name ∧ (∃ a, gInputSideData.lookup name = some a ∧
          call.inputs[pos]? = some (some (SideState.handed clone w.source name call.nid ⟨name, some a⟩))) ∨
        name ∉ gu.graphInputSideData.name ∧ ∃ c ∈ pre, ∃ (producer : NodeUnit) (id : Nat)
          (outputs : List (DataSpec α)) (data : DataSpec α), gu.nodes[c.nid]? = some producer ∧
            producer.outputSideData.name[id]? = some name ∧ c.outputs = .ok outputs ∧ outputs[id]? = some data ∧
              call.inputs[pos]? = some (some (SideState.handed clone (w.node c.nid) name call.nid data))

/-- When PrepareForRun calls a node's Open, the graph input or an earlier Open has set each of its slots. -/
theorem GraphUnit.side_data_ready (gu : GraphUnit) (ord : EdgeOrders) (lord : Order String (List Nat))
    {sideNodeEdge : NodeEdges} {sideDataSortedNodes : List Nat}
    (h : gu.getSideNodeEdge ord = some (.ok (sideNodeEdge, sideDataSortedNodes)))
    (clone : DataSpec α → DataSpec α)
    (opens : Nat → List (Option (DataSpec α)) → Except String (List (DataSpec α)))
    (gInputSideData : GoMap String α)
    (hgiven : ∀ name ∈ gu.graphInputSideData.name, name ∈ gInputSideData)
    (pre : List (OpenCall α)) (call : OpenCall α) (post : List (OpenCall α))
    (hlog : (gu.prepareForRun lord sideNodeEdge sideDataSortedNodes clone opens gInputSideData).1 =
      pre ++ call :: post) (node : NodeUnit) (hnode : gu.nodes[call.nid]? = some node) :
    gu.SlotsSet (gu.sideWiring lord sideNodeEdge) clone gInputSideData pre call node := by
  have hchk : Checked gu.graphInputSideData.name gu.graphOutputSideData.name gu.sideData := checked_of_accepted h
  have hinputs : gu.nodes.map (fun node => node.inputSideData.name) = gu.sideData.map Prod.fst := by
    rw [sideData, List.map_map]
    rfl
  have hw : Wired gu.graphInputSideData.name gu.graphOutputSideData.name gu.sideData
      (gu.sideWiring lord sideNodeEdge) := by
    have hlink := link_wired h lord
    rwa [show gu.sideWiring lord sideNodeEdge = _ from rfl, sideWiring, getSideSourceEdge, hinputs]
  obtain ⟨nodeEdge', sorted', he, hperm, hord, -⟩ :=
    (getEdges_correct ord gu.graphInputSideData.name gu.graphOutputSideData.name gu.sideData).accepted hchk
      (by rw [show getEdges ord _ _ gu.sideData = _ from h]; simp)
  rw [show getEdges ord _ _ gu.sideData = _ from h] at he
  cases he
  have hnext : ∀ name ∈ gu.graphInputSideData.name, name ∈ (gu.sideWiring lord sideNodeEdge).source := by
    intro name hn
    rw [mem_iff_lookup]
    refine ⟨_, (lookup_linkSource gu.graphInputSideData.name gu.getSideSourceEdge name).trans (if_pos hn)⟩
  obtain ⟨st, hst, hshape, hslots⟩ := SideState.addGraphInputs_spec clone
    (fun name => hw.nodup .graphInput name trivial) hgiven hnext (gu.newSideState_shaped (α := α))
  have hgraph : SideState.GraphSet gu.graphInputSideData.name gu.sideData (gu.sideWiring lord sideNodeEdge) clone
      gInputSideData st := by
    intro b side name hb hname hg
    refine hslots b side name hb hname (Or.inr ⟨hg, ?_⟩)
    exact (hw.mem .graphInput name (.node b) trivial).mpr ⟨⟨side, hb, hname⟩, hg, trivial⟩
  have hnames : ∀ (a : Nat) (side : List String × List String), gu.sideData[a]? = some side →
      gu.sideOutputs a = side.2 := by
    intro a side ha
    rw [sideData, List.getElem?_map, Option.map_eq_some_iff] at ha
    obtain ⟨unit, hunit, he⟩ := ha
    subst he
    rw [sideOutputs, hunit]
  have hcalls : (SideState.openNodes clone gu.sideOutputs (gu.sideWiring lord sideNodeEdge).node opens
      sideDataSortedNodes st).1 = pre ++ call :: post := by
    have hst' : SideState.addGraphInputs clone (gu.sideWiring lord sideNodeEdge).source gInputSideData
        gu.graphInputSideData.name (gu.newSideState α) = .ok st := hst
    simpa only [prepareForRun, hst'] using hlog
  have hnone : SideState.NodesSet gu.graphInputSideData.name gu.sideData (gu.sideWiring lord sideNodeEdge) clone [] st :=
    fun b side name hb hname hg c hc => absurd hc List.not_mem_nil
  have hsupplied := SideState.openNodes_spec hchk hw hnames hperm hord (List.nil_append _).symm hshape hgraph
    hnone hcalls
  have hside : gu.sideData[call.nid]? = some (node.inputSideData.name, node.outputSideData.name) := by
    rw [sideData, List.getElem?_map, hnode]
    rfl
  obtain ⟨hlength, hslot⟩ := hsupplied _ hside
  refine ⟨hlength, fun pos name hpos => ?_⟩
  obtain hinput | ⟨hg, c, hc, side, id, outputs, data, hp, hid, houts, hdata, hk⟩ := hslot pos name hpos
  · exact Or.inl hinput
  · rw [sideData, List.getElem?_map, Option.map_eq_some_iff] at hp
    obtain ⟨producer, hproducer, he⟩ := hp
    subst he
    exact Or.inr ⟨hg, c, hc, producer, id, outputs, data, hproducer, hid, houts, hdata, hk⟩

/-- Node 1 opens first and feeds node 0 and node 2. -/
def threeNodes : GraphUnit where
  graphInputStream := ⟨[]⟩
  graphOutputStream := ⟨[]⟩
  graphInputSideData := ⟨["x"]⟩
  graphOutputSideData := ⟨[]⟩
  nodes := [⟨⟨[]⟩, ⟨[]⟩, ⟨["y"]⟩, ⟨[]⟩⟩, ⟨⟨[]⟩, ⟨[]⟩, ⟨["x"]⟩, ⟨["y"]⟩⟩, ⟨⟨[]⟩, ⟨[]⟩, ⟨["y"]⟩, ⟨[]⟩⟩]

def threeNodesEdge : NodeEdges :=
  (((∅ : NodeEdges).insert 0 (∅ : GoMap String (List Nat))).insert 2 (∅ : GoMap String (List Nat))).insert 1
    ((∅ : GoMap String (List Nat)).insert "y" [0, 2])

/-- A deep copy leaves out what is not exported, here the second number. -/
def dropsUnexported (d : DataSpec (Nat × Nat)) : DataSpec (Nat × Nat) :=
  { d with data := d.data.map fun v => (v.1, 0) }

def threeNodesOpen (nid : Nat) (_ : List (Option (DataSpec (Nat × Nat)))) :
    Except String (List (DataSpec (Nat × Nat))) :=
  if nid = 1 then .ok [⟨"y", some (8, 9)⟩] else .ok []

def threeNodesCalls : List (OpenCall (Nat × Nat)) :=
  [⟨1, [some ⟨"x", some (7, 7)⟩], .ok [⟨"y", some (8, 9)⟩]⟩, ⟨2, [some ⟨"y", some (8, 0)⟩], .ok []⟩,
    ⟨0, [some ⟨"y", some (8, 9)⟩], .ok []⟩]

/-- The two consumers are opened after the producer, with a copy of its datum and with the datum itself. -/
theorem GraphUnit.side_data_ready_threeNodes :
    threeNodes.SlotsSet (threeNodes.sideWiring .stored threeNodesEdge) dropsUnexported
        ((∅ : GoMap String (Nat × Nat)).insert "x" (7, 7)) [threeNodesCalls[0]] threeNodesCalls[1] threeNodes.nodes[2] ∧
      threeNodes.SlotsSet (threeNodes.sideWiring .stored threeNodesEdge) dropsUnexported
        ((∅ : GoMap String (Nat × Nat)).insert "x" (7, 7)) [threeNodesCalls[0], threeNodesCalls[1]] threeNodesCalls[2]
        threeNodes.nodes[0] :=
  ⟨side_data_ready threeNodes ⟨.stored, fun _ => .stored⟩ .stored rfl dropsUnexported threeNodesOpen _ (by decide)
      [threeNodesCalls[0]] threeNodesCalls[1] [threeNodesCalls[2]] rfl _ rfl,
    side_data_ready threeNodes ⟨.stored, fun _ => .stored⟩ .stored rfl dropsUnexported threeNodesOpen _ (by decide)
      [threeNodesCalls[0], threeNodesCalls[1]] threeNodesCalls[2] [] rfl _ rfl⟩

/-- The node that is given the second copy does not find the value that Open left. -/
theorem GraphUnit.slotsSet_dropsUnexported :
    threeNodes.getSideNodeEdge ⟨.stored, fun _ => .stored⟩ = some (.ok (threeNodesEdge, [1, 2, 0])) ∧
    ∃ pre call post node, (threeNodes.prepareForRun .stored threeNodesEdge [1, 2, 0] dropsUnexported threeNodesOpen
        ((∅ : GoMap String (Nat × Nat)).insert "x" (7, 7))).1 = pre ++ call :: post ∧
      threeNodes.nodes[call.nid]? = some node ∧
      ¬ threeNodes.SlotsSet (threeNodes.sideWiring .stored threeNodesEdge) id
        ((∅ : GoMap String (Nat × Nat)).insert "x" (7, 7)) pre call node := by
  refine ⟨rfl, [threeNodesCalls[0]], threeNodesCalls[1], [threeNodesCalls[2]], _, rfl, rfl, ?_⟩
  rintro ⟨-, hslots⟩
  obtain ⟨hin, -⟩ | ⟨-, c, hc, producer, id, outputs, data, hproducer, hid, houts, hdata, hslot⟩ := hslots 0 "y" rfl
  · exact absurd hin (by decide)
  · rw [List.mem_singleton] at hc
    subst hc
    cases hproducer
    cases houts
    rw [SideState.handed, Function.iterate_id] at hslot
    cases hslot
    match id with
    | 0 => cases hdata
    | id + 1 => cases hdata

end Dni
