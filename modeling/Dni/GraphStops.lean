import Dni.GraphStart

namespace Dni.Cpp

open Utils OnePass

namespace Graph

theorem node_initialize (cfg : ParsedGraphConfig) (node : Node) (m : Mirrors) :
    (node.Initialize cfg m).2 = 0 := by
  simp [Node.Initialize, Node.initializeOutputSideData, Node.initializeInputSideData,
    Node.initializeOutputStreamHandler, Node.initializeOutputStream, Node.initializeInputStreamHandler,
    Node.initializeInputStream]

theorem initializeEach_nodes (cfg : ParsedGraphConfig) (i : Nat) (infos : List NodeInfo) (m : Mirrors) :
    (initializeEach cfg i infos m).1 = [] ∧
      (initializeEach cfg i infos m).2.1 = (infos.zipIdx i).map fun e => ⟨e.2, e.1, none⟩ := by
  induction infos generalizing i m with
  | nil => exact ⟨rfl, rfl⟩
  | cons info infos ih =>
    obtain ⟨hfaults, hnodes⟩ := ih (i + 1) (Node.Initialize cfg ⟨i, info, none⟩ m).1
    simp only [initializeEach, node_initialize, hfaults, hnodes, List.zipIdx_cons, List.map_cons, ne_eq,
      not_true_eq_false, if_false, List.append_nil, and_self]

/-- An accepted graph has its nodes in their places, none of them prepared. -/
theorem initialize_cases (config : GraphConfig) :
    (∃ graph : Graph, Initialize config = .ok ([], graph) ∧ config.Accepted ∧ graph.cfg.Of config ∧
        graph.nodes = graph.cfg.Nodes.zipIdx.map fun e => ⟨e.2, e.1, none⟩) ∨
      Initialize config = .error .nullDeref ∧ NullFirst config.node ∨
      (∃ e, e ≠ .nullDeref ∧ Initialize config = .error e) ∧ ¬ config.Accepted ∧ ¬ NullFirst config.node := by
  unfold Initialize
  obtain ⟨g, hg, hparsed⟩ | ⟨hg, hfirst⟩ | ⟨⟨e, he, hg⟩, hparsed, hfirst⟩ :=
    ParsedGraphConfig.initialize_cases config
  · have hof := ParsedGraphConfig.of_initialize hg
    have hfirst : ¬ NullFirst config.node := by
      intro ⟨before, node, after, hsplit, _, hnull⟩
      exact hnull.not_setUp (hparsed.setUp node (by simp [hsplit]))
    obtain ⟨m, hm⟩ := (parses_iff _).mp hparsed.inputStream
    have hnames := fieldNames_of_newTagMap hm
    have hstreams : InitializeStreams g = checkInputs g 0 (fieldNames config.inputStream) := by
      rw [InitializeStreams, hof.proto, hm, hnames]
      rfl
    simp only [hg, hstreams, bind, Except.bind]
    obtain ⟨hok, hall⟩ | ⟨herr, hno⟩ := checkInputs_cases hof (fieldNames config.inputStream) 0 (by omega)
    · obtain ⟨hdistinct, hother⟩ := (ownPlaces_iff hof).mp hall
      obtain ⟨hfaults, hnodes⟩ := initializeEach_nodes g 0 g.Nodes ⟨[], []⟩
      refine Or.inl ⟨(InitializeNodes g).2, ?_, ⟨hparsed, hdistinct, hother⟩, hof, hnodes⟩
      simp only [hok, InitializeNodes, hfaults]
    · refine Or.inr (Or.inr ⟨⟨.failed, by simp, by simp only [herr]⟩, ?_, hfirst⟩)
      intro h
      exact hno ((ownPlaces_iff hof).mpr ⟨h.distinct, h.other⟩)
  · exact Or.inr (Or.inl ⟨by rw [hg]; rfl, hfirst⟩)
  · exact Or.inr (Or.inr ⟨⟨e, he, by rw [hg]; rfl⟩, fun h => hparsed h.parsed, hfirst⟩)

section Run

variable (env : Env) (allSideData : List Text)

/-- A node misses a side datum when no datum has the name of one of its inputs. -/
def Missing (info : NodeInfo) : Prop := ∃ name ∈ info.Config.InputSideData.names, name ∉ allSideData

theorem prepareInputSideData_eq (info : NodeInfo) :
    prepareInputSideData info.Config.InputSideData.names allSideData = 0 ↔ ¬ Missing allSideData info := by
  unfold prepareInputSideData Missing
  push Not
  split
  next h => simpa using h
  next h => simpa using h

/-- A node that has all its side data and a known task type is ready to be opened. -/
theorem node_prepare (node : Node) :
    (Missing allSideData node.info → node.PrepareForRun env allSideData = .ok (node, -1)) ∧
      (¬ Missing allSideData node.info → env.registered node.info.Config.proto.task = true →
        node.PrepareForRun env allSideData = .ok ({ node with task := some node.info.Config.proto.task }, 0)) ∧
      (¬ Missing allSideData node.info → env.registered node.info.Config.proto.task = false →
        node.PrepareForRun env allSideData = .error .terminated) := by
  unfold Node.PrepareForRun
  refine ⟨?_, ?_, ?_⟩
  · intro h
    have hret := mt (prepareInputSideData_eq allSideData node.info).mp (not_not.mpr h)
    simp only [ne_eq, hret, not_false_eq_true, if_true]
  · intro h hreg
    have hret := (prepareInputSideData_eq allSideData node.info).mpr h
    simp only [ne_eq, hret, not_true_eq_false, if_false, hreg, if_true]
  · intro h hreg
    have hret := (prepareInputSideData_eq allSideData node.info).mpr h
    simp only [ne_eq, hret, not_true_eq_false, if_false, hreg, Bool.false_eq_true]

theorem prepareEach_cases (nodes : List Node) :
    (∃ faults nodes', prepareEach env allSideData nodes = (faults, .ok nodes') ∧
        (faults = [] ↔ ∀ node ∈ nodes, ¬ Missing allSideData node.info) ∧
        List.Forall₂ (fun node node' => node'.index = node.index ∧
          (node'.task = none ↔ node.task = none ∧ Missing allSideData node.info)) nodes nodes' ∧
        ∀ node ∈ nodes, Missing allSideData node.info ∨ env.registered node.info.Config.proto.task = true) ∨
      (∃ faults, prepareEach env allSideData nodes = (faults, .error .terminated)) ∧
        ¬ ∀ node ∈ nodes, Missing allSideData node.info ∨ env.registered node.info.Config.proto.task = true := by
  induction nodes with
  | nil => exact Or.inl ⟨[], [], rfl, by simp, .nil, by simp⟩
  | cons node nodes ih =>
    obtain ⟨hmiss, hready, hthrow⟩ := node_prepare env allSideData node
    unfold prepareEach
    obtain ⟨faults, nodes', hrest, hfaults, hnodes, hreg⟩ | ⟨⟨faults, hrest⟩, hreg⟩ := ih
    · by_cases hm : Missing allSideData node.info
      · refine Or.inl ⟨.prepare node.index :: faults, node :: nodes', ?_, ?_, .cons ⟨rfl, by simp [hm]⟩ hnodes, ?_⟩
        · simp [hmiss hm, hrest, Except.map]
        · simp [hm]
        · simpa [hm] using hreg
      · cases hr : env.registered node.info.Config.proto.task with
        | true =>
          refine Or.inl ⟨faults, { node with task := some node.info.Config.proto.task } :: nodes', ?_, ?_,
            .cons ⟨rfl, by simp [hm]⟩ hnodes, ?_⟩
          · simp [hready hm hr, hrest, Except.map]
          · simpa [hm] using hfaults
          · simpa [hr] using hreg
        | false =>
          refine Or.inr ⟨⟨[], by simp [hthrow hm hr]⟩, ?_⟩
          simp [hm, hr]
    · refine Or.inr ⟨?_, fun h => hreg fun n hn => h n (by simp [hn])⟩
      by_cases hm : Missing allSideData node.info
      · exact ⟨_, by simp [hmiss hm, hrest, Except.map]; rfl⟩
      · cases hr : env.registered node.info.Config.proto.task with
        | true => exact ⟨_, by simp [hready hm hr, hrest, Except.map]; rfl⟩
        | false => exact ⟨[], by simp [hthrow hm hr]⟩

theorem openEach_cases {nodes : List Node} (hindex : ∀ (i : Nat) node, nodes[i]? = some node → node.index = i)
    (is : List Nat) :
    (∃ faults, openEach env nodes is = (faults, .ok ()) ∧
        (faults = [] ↔ ∀ i ∈ is, i < nodes.length → env.openCode i = 0) ∧
        ∀ i ∈ is, ∀ node, nodes[i]? = some node → node.task ≠ none) ∨
      (∃ faults, openEach env nodes is = (faults, .error .nullDeref)) ∧
        ∃ i ∈ is, ∃ node, nodes[i]? = some node ∧ node.task = none := by
  induction is with
  | nil => exact Or.inl ⟨[], rfl, by simp, by simp⟩
  | cons i is ih =>
    unfold openEach
    cases hn : nodes[i]? with
    | none =>
      have hlen : ¬ i < nodes.length := by
        have := List.getElem?_eq_none_iff.mp hn
        omega
      obtain ⟨faults, hrest, hfaults, htasks⟩ | ⟨herr, j, hj, hnode⟩ := ih
      · exact Or.inl ⟨faults, hrest, by simpa [hlen] using hfaults, by simpa [hn] using htasks⟩
      · exact Or.inr ⟨herr, j, by simp [hj], hnode⟩
    | some node =>
      have hlen : i < nodes.length := (List.getElem?_eq_some_iff.mp hn).1
      cases ht : node.task with
      | none =>
        have hopen : node.Open env = .error .nullDeref := by simp only [Node.Open, ht]
        exact Or.inr ⟨⟨[], by simp only [hopen]⟩, i, by simp, node, hn, ht⟩
      | some task =>
        have hopen : node.Open env = .ok (env.openCode i, 0) := by
          simp only [Node.Open, ht, hindex i node hn]
        obtain ⟨faults, hrest, hfaults, htasks⟩ | ⟨⟨faults, hrest⟩, j, hj, hnode⟩ := ih
        · refine Or.inl ⟨(if env.openCode i ≠ 0 then [.open i] else []) ++ faults, ?_, ?_, ?_⟩
          · simp [hopen, hrest]
          · by_cases hc : env.openCode i = 0
            · simpa [hc] using hfaults
            · simp [hc, hlen]
          · simpa [hn, ht] using htasks
        · refine Or.inr ⟨⟨(if env.openCode i ≠ 0 then [.open i] else []) ++ faults, ?_⟩, j, by simp [hj], hnode⟩
          simp [hopen, hrest]

end Run

end Graph

section Forall

variable {α β : Type} {R : α → β → Prop} {as : List α} {bs : List β}

theorem getElem?_of_forall₂ (h : List.Forall₂ R as bs) (i : Nat) :
    as[i]? = none ∧ bs[i]? = none ∨ ∃ a b, as[i]? = some a ∧ bs[i]? = some b ∧ R a b := by
  induction h generalizing i with
  | nil => exact Or.inl ⟨rfl, rfl⟩
  | @cons a b as bs hab _ ih =>
    cases i with
    | zero => exact Or.inr ⟨a, b, rfl, rfl, hab⟩
    | succ i => simpa only [List.getElem?_cons_succ] using ih i

theorem exists_of_forall₂ (h : List.Forall₂ R as bs) {P : α → Prop} {Q : β → Prop}
    (hpq : ∀ a b, R a b → (P a ↔ Q b)) (i : Nat) :
    (∃ a, as[i]? = some a ∧ P a) ↔ ∃ b, bs[i]? = some b ∧ Q b := by
  obtain ⟨ha, hb⟩ | ⟨a, b, ha, hb, hab⟩ := getElem?_of_forall₂ h i
  · simp [ha, hb]
  · simp [ha, hb, hpq a b hab]

theorem forall_of_forall₂ (h : List.Forall₂ R as bs) {P : α → Prop} {Q : β → Prop}
    (hpq : ∀ a b, R a b → (P a ↔ Q b)) : (∀ a ∈ as, P a) ↔ ∀ b ∈ bs, Q b := by
  induction h with
  | nil => simp
  | cons hab _ ih => simp only [List.forall_mem_cons, hpq _ _ hab, ih]

end Forall

/-- An input of the node is the name of no side datum of the graph. -/
def GraphConfig.Node.Misses (config : GraphConfig) (node : GraphConfig.Node) : Prop :=
  ∃ name ∈ fieldNames node.inputSideData, name ∉ config.sideNames

/-- The runs in which errors stop the graph. The first clause is about tags that do not parse, the
second about a graph that is accepted: it has no error, or the process dies when a node is opened
that was never prepared. -/
structure Handled (env : Env) (config : GraphConfig) : Prop where
  tags : NullFirst config.node → env.traps = true
  run : config.Accepted →
    (∀ node ∈ config.node, node.Misses config ∨ env.registered node.task = true) →
      (∀ node ∈ config.node, ¬ node.Misses config) ∧
          (∀ i ∈ env.opened, i < config.node.length → env.openCode i = 0) ∨
        env.traps = true ∧ ∃ i ∈ env.opened, ∃ node, config.node[i]? = some node ∧ node.Misses config

/-- A graph that is not accepted calls nothing of any task. -/
theorem start_of_error {env : Env} {config : GraphConfig} {e : Stop} (h : Graph.Initialize config = .error e) :
    Graph.start env config = ⟨[], .error e, []⟩ := by
  rw [Graph.start, h]

theorem missing_iff {config : GraphConfig} {proto : GraphConfig.Node} {node : NodeInfo} (h : Named proto node) :
    Graph.Missing config.sideNames node ↔ proto.Misses config := by
  rw [Graph.Missing, GraphConfig.Node.Misses, h.inputSideData]

/-- A prepared node keeps its place, and has no task exactly when the configuration's node misses a
side datum. -/
theorem prepared_nodes {config : GraphConfig} {protos : List GraphConfig.Node} {infos : List NodeInfo}
    (hnamed : List.Forall₂ Named protos infos) {start : Nat} {nodes' : List Node}
    (h : List.Forall₂ (fun (e : NodeInfo × Nat) node' => node'.index = e.2 ∧
      (node'.task = none ↔ Graph.Missing config.sideNames e.1)) (infos.zipIdx start) nodes') :
    List.Forall₂ (fun proto node' => node'.task = none ↔ proto.Misses config) protos nodes' ∧
      ∀ (i : Nat) node', nodes'[i]? = some node' → node'.index = start + i := by
  induction hnamed generalizing start nodes' with
  | nil =>
    cases h
    exact ⟨.nil, by simp⟩
  | @cons proto info protos infos hnode _ ih =>
    rw [List.zipIdx_cons] at h
    cases h with
    | cons hhead htail =>
      obtain ⟨hindex, htask⟩ := hhead
      obtain ⟨htasks, hindexes⟩ := ih htail
      refine ⟨.cons (htask.trans (missing_iff hnode)) htasks, ?_⟩
      intro i node' hi
      cases i with
      | zero =>
        cases hi
        exact hindex
      | succ i =>
        have := hindexes i node' hi
        omega

theorem NullFirst.not_setUp {nodes : List GraphConfig.Node} (h : NullFirst nodes) :
    ¬ ∀ node ∈ nodes, node.SetUp := by
  obtain ⟨before, node, after, hsplit, _, hnull⟩ := h
  intro hall
  exact hnull.not_setUp (hall node (by simp [hsplit]))

/-- A graph that is not accepted is refused, except that a null pointer may do anything. -/
theorem errorsStop_of_error {env : Env} {config : GraphConfig} {e : Stop} (hne : e ≠ .nullDeref)
    (h : Graph.Initialize config = .error e) : ErrorsStop env config := by
  intro _
  rw [start_of_error h]
  refine ⟨?_, rfl⟩
  cases e with
  | failed => exact Or.inl rfl
  | terminated => exact Or.inr (Or.inl rfl)
  | nullDeref => exact absurd rfl hne

theorem errorsStop_of_nullFirst {env : Env} {config : GraphConfig} (hfirst : NullFirst config.node)
    (h : Graph.Initialize config = .error .nullDeref) : ErrorsStop env config ↔ env.traps = true := by
  obtain ⟨before, node, after, hsplit, _, _, fields, hfields, hfail⟩ := hfirst
  have hbad : ∃ node ∈ config.node, ∃ fields ∈ node.fields, ¬ Parses fields := by
    refine ⟨node, by simp [hsplit], fields, hfields, ?_⟩
    intro ⟨m, hm⟩
    rw [hm] at hfail
    cases hfail
  unfold ErrorsStop
  rw [start_of_error h]
  simp [hbad, Run.Stopped]

/-- A property of every node of the graph, as one of every node of the configuration. -/
theorem forall_nodes {config : GraphConfig} {graph : Graph} (hof : graph.cfg.Of config)
    (hnodes : graph.nodes = graph.cfg.Nodes.zipIdx.map fun e => ⟨e.2, e.1, none⟩)
    {P : GraphConfig.Node → Prop} {Q : NodeInfo → Prop} (hpq : ∀ proto info, Named proto info → (P proto ↔ Q info)) :
    (∀ node ∈ graph.nodes, Q node.info) ↔ ∀ node ∈ config.node, P node := by
  rw [hnodes, List.forall_mem_map, forall_of_forall₂ hof.nodes hpq]
  apply Iff.intro
  · intro h info hinfo
    obtain ⟨k, hk⟩ := List.mem_iff_getElem?.mp hinfo
    exact h (info, k) (List.mk_mem_zipIdx_iff_getElem?.mpr hk)
  · intro h e he
    exact h e.1 (List.fst_mem_of_mem_zipIdx he)

/-- The run of an accepted graph: it has no error of a node, it ends in an exception, it goes on to
Process, or it opens a node that was not prepared. -/
theorem errorsStop_of_accepted {env : Env} {config : GraphConfig} {graph : Graph}
    (hgraph : Graph.Initialize config = .ok ([], graph)) (hacc : config.Accepted) (hof : graph.cfg.Of config)
    (hnodes : graph.nodes = graph.cfg.Nodes.zipIdx.map fun e => ⟨e.2, e.1, none⟩) :
    ErrorsStop env config ↔
      ((∀ node ∈ config.node, node.Misses config ∨ env.registered node.task = true) →
        (∀ node ∈ config.node, ¬ node.Misses config) ∧
            (∀ i ∈ env.opened, i < config.node.length → env.openCode i = 0) ∨
          env.traps = true ∧ ∃ i ∈ env.opened, ∃ node, config.node[i]? = some node ∧ node.Misses config) := by
  have hgood : ¬ ∃ node ∈ config.node, ∃ fields ∈ node.fields, ¬ Parses fields := by
    intro ⟨node, hnode, fields, hfields, hno⟩
    exact hno ((hacc.parsed.setUp node hnode).1 fields hfields)
  have hmiss := forall_nodes hof hnodes (P := fun node => ¬ node.Misses config)
    (Q := fun info => ¬ Graph.Missing config.sideNames info)
    fun proto info hnode => not_congr (missing_iff hnode).symm
  have hreg := forall_nodes hof hnodes (P := fun node => node.Misses config ∨ env.registered node.task = true)
    (Q := fun info => Graph.Missing config.sideNames info ∨ env.registered info.Config.proto.task = true)
    fun proto info hnode => by rw [missing_iff hnode, hnode.config]
  rw [← hmiss, ← hreg]
  unfold ErrorsStop
  simp only [hgood, false_or, Graph.start, hgraph, Graph.PrepareForRun, hof.sideNames, List.nil_append]
  obtain ⟨faults, nodes', hprepare, hfaults, hprepared, hready⟩ | ⟨⟨faults, hprepare⟩, hready⟩ :=
    Graph.prepareEach_cases env config.sideNames graph.nodes
  · rw [hnodes, List.forall₂_map_left_iff] at hprepared
    have hprepared' := hprepared.imp fun e node' h =>
      (⟨h.1, h.2.trans (and_iff_right rfl)⟩ : node'.index = e.2 ∧
        (node'.task = none ↔ Graph.Missing config.sideNames e.1))
    obtain ⟨htasks, hindexes⟩ := prepared_nodes hof.nodes hprepared'
    have hlength : nodes'.length = config.node.length := htasks.length_eq.symm
    have hopened := fun i => exists_of_forall₂ htasks (P := fun proto => proto.Misses config)
      (Q := fun node' => node'.task = none) (fun _ _ h => h.symm) i
    simp only [hprepare]
    obtain ⟨faults', hopen, hcodes, hnone⟩ | ⟨⟨faults', hopen⟩, i, hi, hnull⟩ :=
      Graph.openEach_cases env (fun i node' h => (hindexes i node' h).trans (Nat.zero_add i)) env.opened
    · -- the graph goes on to Process
      have hno : ¬ ∃ i ∈ env.opened, ∃ node, config.node[i]? = some node ∧ node.Misses config := by
        intro ⟨i, hi, hmisses⟩
        obtain ⟨node', hnode', htask⟩ := (hopened i).mp hmisses
        exact hnone i hi node' hnode' htask
      simp only [hopen, Run.Stopped, reduceCtorEq, Except.map, false_and, imp_false,
        not_not, List.append_eq_nil_iff, hfaults, hcodes, hlength, hno, and_false, or_false]
      exact ⟨fun h _ => h, fun h => h hready⟩
    · -- a node is opened that was not prepared
      have hmisses := (hopened i).mpr hnull
      obtain ⟨node, hnode, hmiss'⟩ := hmisses
      have hsome : ∃ i ∈ env.opened, ∃ node, config.node[i]? = some node ∧ node.Misses config :=
        ⟨i, hi, node, hnode, hmiss'⟩
      have hall : ¬ ∀ node ∈ graph.nodes, ¬ Graph.Missing config.sideNames node.info := by
        rw [hmiss]
        intro h
        exact h node (List.mem_of_getElem? hnode) hmiss'
      have hne : faults ≠ [] := mt hfaults.mp hall
      simp only [hopen, Run.Stopped, Except.map, Except.error.injEq, reduceCtorEq, false_or, true_and,
        and_true, ne_eq, List.append_eq_nil_iff, hne, false_and, not_false_eq_true, true_imp_iff, hall, hsome]
      exact ⟨fun h _ => h, fun h => h hready⟩
  · simp only [hprepare, Run.Stopped, hready, false_imp_iff, iff_true]
    simp

/-- Errors stop the graph exactly in the runs that are handled: in every accepted graph in which a
task's Open fails, and no node is left unprepared, Process is called all the same. -/
theorem errorsStop_iff_handled (env : Env) (config : GraphConfig) :
    ErrorsStop env config ↔ Handled env config := by
  obtain ⟨graph, hgraph, hacc, hof, hnodes⟩ | ⟨herr, hfirst⟩ | ⟨⟨e, he, herr⟩, hacc, hfirst⟩ :=
    Graph.initialize_cases config
  · rw [errorsStop_of_accepted hgraph hacc hof hnodes]
    apply Iff.intro
    · intro h
      exact ⟨fun hfirst => absurd hacc.parsed.setUp hfirst.not_setUp, fun _ => h⟩
    · intro h
      exact h.run hacc
  · rw [errorsStop_of_nullFirst hfirst herr]
    apply Iff.intro
    · intro h
      exact ⟨fun _ => h, fun hacc => absurd hacc.parsed.setUp hfirst.not_setUp⟩
    · intro h
      exact h.tags hfirst
  · apply Iff.intro
    · intro _
      exact ⟨fun h => absurd h hfirst, fun h => absurd h hacc⟩
    · intro _
      exact errorsStop_of_error he herr

/-- A graph of one task, whose Open fails. -/
def oneTask : GraphConfig := ⟨[⟨['n'], ['t'], [['i']], [['o']], [], [], []⟩], [['i']], [['o']], []⟩

def failingOpen : Env := ⟨true, fun _ => true, fun _ => -1, [0], [0]⟩

/-- The failure is seen by nobody: the graph goes on and calls Process. -/
theorem oneTask_errors_go_on : ¬ ErrorsStop failingOpen oneTask := by
  intro h
  have hrun : Graph.start failingOpen oneTask = ⟨[.open 0], .ok (), [0]⟩ := rfl
  unfold ErrorsStop at h
  rw [hrun] at h
  have hprocessed := (h (Or.inr (by simp))).2
  simp at hprocessed

end Dni.Cpp
