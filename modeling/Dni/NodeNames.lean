import Dni.GraphOrder
import Dni.Lib.Digits
import Dni.Lib.Occurrence

namespace Dni.Cpp

open Utils

namespace GraphConfig

/-- How many nodes have a base name. -/
def baseCount (config : GraphConfig) (base : Text) : Nat := config.node.countP fun node => node.baseName = base

/-- Two nodes never get one name, and the map of the tasks has as many names as there are nodes. -/
structure NamesDistinct (config : GraphConfig) : Prop where
  injective : ∀ i j name, config.canonicalName i = some name → config.canonicalName j = some name → i = j
  tasks : ∀ g, ParsedGraphConfig.Initialize config = .ok g → (taskMap g.Nodes).keys.length = g.Nodes.length

/-- No base name that stands alone is one that is made from a repeated base name and a number of its nodes. -/
def BasesApart (config : GraphConfig) : Prop :=
  ∀ node ∈ config.node, config.baseCount node.baseName = 1 →
    ∀ other ∈ config.node, 1 < config.baseCount other.baseName →
      ∀ seq < config.baseCount other.baseName, node.baseName ≠ other.baseName ++ '_' :: Nat.toDigits 10 seq

section Names

variable {config : GraphConfig}

theorem baseCount_pos {node : Node} (h : node ∈ config.node) : 0 < config.baseCount node.baseName :=
  List.countP_pos_iff.mpr ⟨node, h, decide_eq_true rfl⟩

/-- A name that stands alone is given as it is; one that is repeated gets the number of the node. -/
theorem canonicalName_cases {i : Nat} {name : Text} (h : config.canonicalName i = some name) :
    ∃ node, config.node[i]? = some node ∧
      (config.baseCount node.baseName = 1 ∧ name = node.baseName ∨
        1 < config.baseCount node.baseName ∧
          name = node.baseName ++ '_' ::
            Nat.toDigits 10 ((config.node.take i).countP fun other => other.baseName = node.baseName)) := by
  obtain ⟨node, hnode, hname⟩ := Option.map_eq_some_iff.mp h
  have hpos := baseCount_pos (List.mem_of_getElem? hnode)
  refine ⟨node, hnode, ?_⟩
  rw [← hname, CanonicalNodeName]
  by_cases hone : config.baseCount node.baseName ≤ 1
  · exact Or.inl ⟨by omega, if_pos hone⟩
  · exact Or.inr ⟨by omega, if_neg hone⟩

theorem canonicalName_repeated {i : Nat} {node : Node} (hnode : config.node[i]? = some node)
    (hmany : 1 < config.baseCount node.baseName) :
    config.canonicalName i = some (node.baseName ++ '_' ::
      Nat.toDigits 10 ((config.node.take i).countP fun other => other.baseName = node.baseName)) := by
  have hneg : ¬ config.baseCount node.baseName ≤ 1 := by omega
  rw [canonicalName, hnode, Option.map_some, CanonicalNodeName]
  exact congrArg some (if_neg hneg)

theorem canonicalName_alone {i : Nat} {node : Node} (hnode : config.node[i]? = some node)
    (hone : config.baseCount node.baseName = 1) : config.canonicalName i = some node.baseName := by
  have hle : config.baseCount node.baseName ≤ 1 := by omega
  rw [canonicalName, hnode, Option.map_some, CanonicalNodeName]
  exact congrArg some (if_pos hle)

/-- A base name that stands alone stands at one place. -/
theorem eq_of_alone {i j : Nat} {node other : Node} (hi : config.node[i]? = some node) (hj : config.node[j]? = some other)
    (hone : config.baseCount node.baseName = 1) (hbase : other.baseName = node.baseName) : i = j := by
  have hlti := Occurrence.countP_take_lt_countP (p := fun n => n.baseName = node.baseName) hi (decide_eq_true rfl)
  have hltj := Occurrence.countP_take_lt_countP (p := fun n => n.baseName = node.baseName) hj (decide_eq_true hbase)
  apply Occurrence.countP_take_inj (p := fun n => n.baseName = node.baseName) hi hj (decide_eq_true rfl)
    (decide_eq_true hbase)
  unfold baseCount at hone
  omega

theorem injective_of_basesApart (h : config.BasesApart) (i j : Nat) (name : Text)
    (hi : config.canonicalName i = some name) (hj : config.canonicalName j = some name) : i = j := by
  have hnumber : ∀ n, '_' ∉ Nat.toDigits 10 n := Digits.not_mem_toDigits (by decide)
  obtain ⟨node, hnode, ⟨hone, hname⟩ | ⟨hmany, hname⟩⟩ := canonicalName_cases hi
  · obtain ⟨other, hother, ⟨_, hname'⟩ | ⟨hmany', hname'⟩⟩ := canonicalName_cases hj
    · exact eq_of_alone hnode hother hone (hname'.symm.trans hname)
    · refine absurd (hname.symm.trans hname') (h node (List.mem_of_getElem? hnode) hone other
        (List.mem_of_getElem? hother) hmany' _ ?_)
      exact Occurrence.countP_take_lt_countP hother (decide_eq_true rfl)
  · obtain ⟨other, hother, ⟨hone', hname'⟩ | ⟨_, hname'⟩⟩ := canonicalName_cases hj
    · refine absurd (hname'.symm.trans hname) (h other (List.mem_of_getElem? hother) hone' node
        (List.mem_of_getElem? hnode) hmany _ ?_)
      exact Occurrence.countP_take_lt_countP hnode (decide_eq_true rfl)
    · -- the last underscore tells the base name from the number
      obtain ⟨hbase, hdigits⟩ := Digits.last_inj (hnumber _) (hnumber _) (hname.symm.trans hname')
      have hseq := Digits.toDigits_inj hdigits
      rw [← hbase] at hseq
      exact Occurrence.countP_take_inj hnode hother (decide_eq_true rfl) (decide_eq_true hbase.symm) hseq

theorem basesApart_of_injective
    (h : ∀ i j name, config.canonicalName i = some name → config.canonicalName j = some name → i = j) :
    config.BasesApart := by
  intro node hnode hone other hother hmany seq hseq heq
  obtain ⟨i, hi⟩ := List.mem_iff_getElem?.mp hnode
  obtain ⟨j, x, hj, hx, hcount⟩ := Occurrence.exists_countP_take hseq
  have hbase : x.baseName = other.baseName := of_decide_eq_true hx
  have hname : config.canonicalName j = some node.baseName := by
    rw [canonicalName_repeated hj (hbase ▸ hmany), heq, hbase, hcount]
  have hij := h i j _ (canonicalName_alone hi hone) hname
  subst hij
  rw [hi, Option.some.injEq] at hj
  rw [hj, hbase] at hone
  omega

/-- The map of the tasks has one entry for each name. -/
theorem keys_taskMap (nodes : List NodeInfo) :
    (taskMap nodes).keys.Perm (nodes.map fun node => node.Config.nodeName).dedup := by
  rw [List.perm_ext_iff_of_nodup (AList.keys_nodup _) (List.nodup_dedup _)]
  intro name
  rw [← AList.mem_keys, GoMap.mem_iff_lookup, List.mem_dedup, List.mem_map]
  apply Iff.intro
  · intro ⟨x, hx⟩
    obtain ⟨node, hnode, hname⟩ := name_of_taskMap hx
    exact ⟨node, List.mem_of_getElem? hnode, hname⟩
  · intro ⟨node, hnode, hname⟩
    obtain ⟨i, hi⟩ := List.mem_iff_getElem?.mp hnode
    exact hname ▸ taskMap_of_node hi

theorem tasks_of_injective
    (h : ∀ i j name, config.canonicalName i = some name → config.canonicalName j = some name → i = j)
    {g : ParsedGraphConfig} (hg : ParsedGraphConfig.Initialize config = .ok g) :
    (taskMap g.Nodes).keys.length = g.Nodes.length := by
  have hread := nodesRead hg
  have hnodup : (g.Nodes.map fun node => node.Config.nodeName).Nodup := by
    rw [List.nodup_iff_injective_getElem]
    intro i j hij
    have hget : ∀ k : Fin (g.Nodes.map fun node => node.Config.nodeName).length,
        config.canonicalName k = some (g.Nodes.map fun node => node.Config.nodeName)[k] := by
      intro k
      rw [← hread.name, ← List.getElem?_map]
      exact List.getElem?_eq_getElem k.isLt
    exact Fin.ext (h i j _ (hget i) ((hget j).trans (congrArg some hij.symm)))
  rw [(keys_taskMap g.Nodes).length_eq, hnodup.dedup, List.length_map]

/-- The names of a configuration are distinct exactly when its base names are apart. -/
theorem namesDistinct_iff (config : GraphConfig) : config.NamesDistinct ↔ config.BasesApart := by
  apply Iff.intro
  · intro h
    exact basesApart_of_injective h.injective
  · intro h
    have hinj := injective_of_basesApart h
    exact ⟨hinj, fun _ hg => tasks_of_injective hinj hg⟩

/-- The first node has the name that the last is given, and there are two tasks for three nodes. -/
theorem sharedName_not_distinct : sharedName.canonicalName 0 = sharedName.canonicalName 2 ∧
    (∃ g, ParsedGraphConfig.Initialize sharedName = .ok g ∧ g.Nodes.length = 3 ∧ (taskMap g.Nodes).keys.length = 2) ∧
    ¬ sharedName.NamesDistinct := by
  refine ⟨by decide, ⟨_, rfl, rfl, by decide +kernel⟩, ?_⟩
  intro h
  have hsame := h.injective 0 2 ['a', '_', '1'] (by decide) (by decide)
  cases hsame

end Names

end GraphConfig

end Dni.Cpp
