import Dni.GraphValues
import Dni.GraphSound
import Dni.Lib.InOrder

namespace Dni

open GoMap InOrder

namespace GraphUnit

variable {V : Type} (gu : GraphUnit)

/-- The output that a consumer has a stream from; a graph input hides a node's output of the same name from the
nodes. -/
def sourceOf (c : Consumer) (s : String) : Producer × Nat :=
  if c ≠ .graphOutput ∧ s ∈ gu.graphInputStream.name then (.graphInput, gu.graphInputStream.name.idxOf s)
  else
    let p := Producer.node (gu.nodes.findIdx fun node => s ∈ node.outputStream.name)
    (p, (gu.outputNames p).idxOf s)

/-- The value of a stream, from those of all outputs. -/
def streamValue (env : Producer → Nat → V) (c : Consumer) (s : String) : V :=
  env (gu.sourceOf c s).1 (gu.sourceOf c s).2

/-- What a task makes of the values of its node's inputs. -/
def evalNode (task : Nat → List V → TaskResult V) (nil : V) : Producer → (Producer → Nat → V) → Nat → V
  | .graphInput, env => env .graphInput
  | .node a, env =>
    ((task a ((gu.inputNames a).map fun s => gu.streamValue env (.node a) s)).outputs).getD fun _ => nil

/-- All outputs of a round, by evaluating the nodes in an order. -/
def evalRound (task : Nat → List V → TaskResult V) (nil : V) (sortedNodes : List Nat) (given : Nat → V) :
    Producer → Nat → V :=
  eval (gu.evalNode task nil) (sortedNodes.map .node) fun
    | .graphInput => given
    | .node _ => fun _ => nil

end GraphUnit

theorem idxOf_of_count_le_one {l : List String} {s : String} {i : Nat} (hi : l[i]? = some s) (hcount : l.count s ≤ 1) :
    l.idxOf s = i := by
  induction l generalizing i with
  | nil => cases hi
  | cons s' l ih =>
    by_cases hs : s' = s
    · subst hs
      rw [List.idxOf_cons_self]
      cases i with
      | zero => rfl
      | succ i =>
        rw [List.getElem?_cons_succ] at hi
        have hpos := List.count_pos_iff.mpr (List.mem_of_getElem? hi)
        rw [List.count_cons_self] at hcount
        omega
    · cases i with
      | zero => exact absurd (Option.some.inj hi) hs
      | succ i =>
        rw [List.count_cons_of_ne hs] at hcount
        rw [List.idxOf_cons_ne _ hs, ih hi hcount]

section Carries

variable {V : Type} {chs : Channels} {out value : Nat → V} {id : Nat} {rest : List SendOp} {s : String}

theorem carries_sendNext {cs : List Consumer} (h : ∀ c ∈ cs, ∀ ch, chs.channel c s = some ch → value ch = out id)
    (hrest : Carries out value (some id) rest) : Carries out value (some id) (sendNext chs s cs ++ rest) := by
  induction cs with
  | nil => exact hrest
  | cons c cs ih =>
    obtain ⟨hc, hcs⟩ := List.forall_mem_cons.mp h
    rw [sendNext]
    cases hch : chs.channel c s with
    | none => exact hrest
    | some ch => exact ⟨⟨id, rfl, hc ch hch⟩, ih hcs⟩

theorem carries_sendAll {cs : List Consumer} (h : ∀ c ∈ cs, ∀ ch, chs.channel c s = some ch → value ch = out id)
    (hrest : Carries out value (some id) rest) : Carries out value (some id) (sendAll chs s cs ++ rest) := by
  cases cs with
  | nil => exact hrest
  | cons c cs =>
    obtain ⟨hc, hcs⟩ := List.forall_mem_cons.mp h
    rw [sendAll]
    cases hch : chs.channel c s with
    | none => exact hrest
    | some ch => exact ⟨⟨id, rfl, hc ch hch⟩, carries_sendNext hcs hrest⟩

/-- AddAllData sends the value of an output to the consumers of its stream. -/
theorem carries_addAllData {w : Wiring} {p : Producer} {streams : List String}
    (h : ∀ s id, streams[id]? = some s → ∀ c ∈ w.consumers p s, ∀ ch, chs.channel c s = some ch → value ch = out id) :
    Carries out value none (addAllData chs w p streams) := by
  have hloop : ∀ l : List (String × Nat), (∀ e ∈ l, ∀ c ∈ w.consumers p e.1, ∀ ch, chs.channel c e.1 = some ch →
      value ch = out e.2) → ∀ o, Carries out value o
        (l.flatMap fun e => .output e.2 :: sendAll chs e.1 (w.consumers p e.1)) := by
    intro l
    induction l with
    | nil => exact fun _ _ => trivial
    | cons e l ih =>
      intro hl o
      obtain ⟨he, hl⟩ := List.forall_mem_cons.mp hl
      exact carries_sendAll he (ih hl _)
  refine hloop _ (fun e he => ?_) none
  exact h e.1 e.2 (List.mem_zipIdx_iff_getElem?.mp he)

end Carries

namespace GraphUnit

/-- The source of what a consumer takes. -/
theorem sourceOf_source {gu : GraphUnit} (hchecked : Checked gu.graphInputStream.name gu.graphOutputStream.name gu.streams)
    {c : Consumer} {s : String} (hc : Takes gu.graphOutputStream.name gu.streams s c) :
    Source gu.graphInputStream.name gu.streams s (gu.sourceOf c s).1 c ∧
      (gu.sourceOf c s).2 = (gu.outputNames (gu.sourceOf c s).1).idxOf s := by
  have hmaker : s ∈ gu.streams.flatMap Prod.snd →
      Makes gu.graphInputStream.name gu.streams s (.node (gu.nodes.findIdx fun node => s ∈ node.outputStream.name)) := by
    intro hs
    obtain ⟨a, node, hnode, hmem⟩ := mem_outputs_iff.mp hs
    rw [streams, List.getElem?_map] at hnode
    obtain ⟨unit, hunit, rfl⟩ := Option.map_eq_some_iff.mp hnode
    have hlt : gu.nodes.findIdx (fun node => s ∈ node.outputStream.name) < gu.nodes.length :=
      List.findIdx_lt_length_of_exists ⟨unit, List.mem_of_getElem? hunit, by simpa using hmem⟩
    have hfind := List.findIdx_getElem (w := hlt)
    have hget : gu.streams[gu.nodes.findIdx fun node => s ∈ node.outputStream.name]? =
        some (gu.nodes[gu.nodes.findIdx fun node => s ∈ node.outputStream.name].inputStream.name,
          gu.nodes[gu.nodes.findIdx fun node => s ∈ node.outputStream.name].outputStream.name) := by
      rw [streams, List.getElem?_map, List.getElem?_eq_getElem hlt]
      rfl
    exact ⟨_, hget, by simpa using hfind⟩
  unfold sourceOf
  cases c with
  | node b =>
    by_cases hs : s ∈ gu.graphInputStream.name
    · rw [if_pos ⟨by simp, hs⟩]
      exact ⟨⟨hs, trivial⟩, rfl⟩
    · rw [if_neg fun h => hs h.2]
      obtain ⟨node, hnode, hmem⟩ := hc
      exact ⟨⟨hmaker ((hchecked.sources node (List.mem_of_getElem? hnode) s hmem).resolve_left hs), hs⟩, rfl⟩
  | graphOutput =>
    rw [if_neg fun h => h.1 rfl]
    exact ⟨⟨hmaker (hchecked.graphOutputs s hc), trivial⟩, rfl⟩

section Round

variable {V : Type} {gu : GraphUnit} {task : Nat → List V → TaskResult V} {nil : V} {sortedNodes : List Nat}
  {given : Nat → V}

theorem evalRound_given : gu.evalRound task nil sortedNodes given .graphInput = given :=
  eval_of_not_mem (by simp)

/-- The values of a round fit together, if the order has the makers of every stream before its readers. -/
theorem evalRound_node {w : Wiring} (hl : gu.LinkedRight w sortedNodes) {a : Nat} (ha : a < gu.streams.length) :
    gu.evalRound task nil sortedNodes given (.node a) =
      ((task a ((gu.inputNames a).map fun s =>
        gu.streamValue (gu.evalRound task nil sortedNodes given) (.node a) s)).outputs).getD fun _ => nil := by
  have hinj : Function.Injective Producer.node := fun _ _ => Producer.node.inj
  refine eval_fixed (fun p => ∃ s ∈ gu.inputNames a, (gu.sourceOf (.node a) s).1 = p) ?_
    ((hl.perm.nodup_iff.mpr List.nodup_range).map hinj) ?_
    (List.mem_map_of_mem (hl.perm.mem_iff.mpr (List.mem_range.mpr ha)))
  · intro env env' henv
    refine congrArg (fun l => ((task a l).outputs).getD fun _ => nil) (List.map_congr_left fun s hs => ?_)
    rw [streamValue, streamValue, henv _ ⟨s, hs, rfl⟩]
  · intro p hp hdep
    obtain ⟨b, -, rfl⟩ := List.mem_map.mp hp
    obtain ⟨s, hs, hb⟩ := hdep
    have htakes := takes_iff.mpr hs
    obtain ⟨hmakes, hfree⟩ := (sourceOf_source hl.checked htakes).1
    rw [hb] at hmakes hfree
    obtain ⟨pre, post, hsplit, hmem⟩ := hl.sorted s b a ⟨hfree, htakes, hmakes⟩
    exact ⟨pre.map .node, post.map .node, by rw [hsplit, List.map_append, List.map_cons], List.mem_map_of_mem hmem⟩

variable {w : Wiring} {cord : Producer → Order String (List Consumer)} {x : Flow V}

/-- The values on the channels are those of their streams, whatever the tasks do in each round. -/
theorem LinkedRight.evaluates_each (hl : gu.LinkedRight w sortedNodes)
    (hnames : ∀ node ∈ gu.nodes, ∀ s ∈ node.inputStream.name, gu.graphInputStream.name.count s ≤ 1)
    (hx : x.toFlowGraph = gu.flow w cord) :
    ∃ value : Nat → Nat → V,
      x.Evaluates (fun k => gu.evalRound (x.task · (k + 1)) x.nil sortedNodes (x.given k)) value ∧
      ∀ k c s ch, gu.channels.channel c s = some ch →
        value k ch = gu.streamValue (gu.evalRound (x.task · (k + 1)) x.nil sortedNodes (x.given k)) c s := by
  classical
  obtain ⟨value, hvalue⟩ : ∃ value : Nat → Nat → V, ∀ k c s ch, gu.channels.channel c s = some ch →
      value k ch = gu.streamValue (gu.evalRound (x.task · (k + 1)) x.nil sortedNodes (x.given k)) c s := by
    refine ⟨fun k ch => if h : ∃ e : Consumer × String, gu.channels.channel e.1 e.2 = some ch then
      gu.streamValue (gu.evalRound (x.task · (k + 1)) x.nil sortedNodes (x.given k)) h.choose.1 h.choose.2 else x.nil, ?_⟩
    intro k c s ch hch
    have hex : ∃ e : Consumer × String, gu.channels.channel e.1 e.2 = some ch := ⟨(c, s), hch⟩
    obtain ⟨hc, hs⟩ := hl.inj _ _ _ _ _ hex.choose_spec hch
    refine (dif_pos hex).trans ?_
    rw [hc, hs]
  refine ⟨value, ⟨fun k id => congrFun evalRound_given id, fun k a ha => ?_, fun k p hp => ?_⟩, hvalue⟩
  · have hsize : x.size = gu.streams.length := by
      rw [hx, streams, List.length_map]
      rfl
    have hinputs : x.inputs = (gu.flow w cord).inputs := by rw [hx]
    rw [evalRound_node hl (hsize ▸ ha), hinputs]
    refine congrArg (fun l => ((x.task a (k + 1) l).outputs).getD fun _ => x.nil) ?_
    show _ = ((gu.inputNames a).filterMap (gu.channels.channel (.node a))).map (value k)
    rw [List.map_filterMap, ← List.filterMap_eq_map]
    refine List.filterMap_congr fun s hs => ?_
    obtain ⟨ch, hch⟩ := (hl.channel (.node a) s).mpr (takes_iff.mpr hs)
    rw [hch, Option.map_some, hvalue k _ _ _ hch]
    rfl
  · have hp' : Present gu.streams p := present_of_has (hx ▸ hp)
    have hsends : x.sends p = addAllData gu.channels w p (gu.outputNames p) := by
      rw [hx]
      rfl
    rw [hsends]
    refine carries_addAllData fun s id hid c hc ch hch => ?_
    have htakes := ((hl.wired.mem p s c hp').mp hc).1
    obtain ⟨hsource, hid'⟩ := sourceOf_source hl.checked htakes
    obtain ⟨q, -, -, hone⟩ := hl.checked.source_unique htakes
    have hp'' : (gu.sourceOf c s).1 = p := by
      rw [hone _ hsource, hone p ((hl.wired.mem p s c hp').mp hc).2]
    rw [hp'', idxOf_of_count_le_one hid (hl.count_le hnames hp' hc)] at hid'
    rw [hvalue k c s ch hch, streamValue, hp'', hid']

/-- The same task in every round. -/
theorem LinkedRight.evaluates (hl : gu.LinkedRight w sortedNodes)
    (hnames : ∀ node ∈ gu.nodes, ∀ s ∈ node.inputStream.name, gu.graphInputStream.name.count s ≤ 1)
    (hx : x.toFlowGraph = gu.flow w cord) (htask : ∀ a k, x.task a k = task a) :
    ∃ value : Nat → Nat → V, x.Evaluates (fun k => gu.evalRound task x.nil sortedNodes (x.given k)) value ∧
      ∀ k c s ch, gu.channels.channel c s = some ch →
        value k ch = gu.streamValue (gu.evalRound task x.nil sortedNodes (x.given k)) c s := by
  have hsame : ∀ k, (x.task · (k + 1)) = task := fun k => funext fun a => htask a (k + 1)
  have heach := hl.evaluates_each hnames hx
  simpa only [hsame] using heach

end Round

end GraphUnit

end Dni
