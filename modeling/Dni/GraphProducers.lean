import Dni.GraphSound

namespace Dni

open GoMap

/-- What the caller does to the inputs of the graph; AddAllGraphInputData adds to one after the other. -/
inductive InputCall
  | addGraphInputData (stream : String)
  | close
  deriving DecidableEq

/-- A way to a channel: an output stream of a producer, and a place among the stream's consumers. -/
structure Link where
  producer : Producer
  output : Nat
  consumer : Nat

/-- Of the steps at a node those of Execute come to the channels. -/
def NodeEvent.ops (ops : NodeLoop → List ChannelOp) (s : NodeLoop) : NodeEvent → List ChannelOp
  | .execute _ _ => ops s
  | _ => []

def NodeLoop.trace (ops : NodeLoop → List ChannelOp) : NodeLoop → List NodeEvent → List ChannelOp
  | _, [] => []
  | s, e :: es => e.ops ops s ++
    match s.step e with
    | none => []
    | some t => t.trace ops es

namespace GraphUnit

variable (gu : GraphUnit) (w : Wiring) (cord : Producer → Order String (List Consumer))

/-- AddGraphInputData and Close of the input handler. -/
def inputOps : InputCall → List ChannelOp
  | .addGraphInputData stream => addDataOps gu.channels stream (w.consumers .graphInput stream)
  | .close => closeOps gu.channels ((cord .graphInput).run w.source)

/-- AddAllData of a node. -/
def addAllOps (a : Nat) : List ChannelOp :=
  (gu.outputNames (.node a)).flatMap fun stream => addDataOps gu.channels stream (w.consumers (.node a) stream)

/-- What the next step of a node's Execute does to the channels. -/
def executeOps (a : Nat) (s : NodeLoop) : List ChannelOp :=
  match s.pos with
  | .process => gu.addAllOps w a
  | .close => closeOps gu.channels ((cord (.node a)).run (w.node a))
  | _ => []

def Feeds (l : Link) (ch : Nat) : Prop :=
  ∃ s c, (gu.outputNames l.producer)[l.output]? = some s ∧ (w.consumers l.producer s)[l.consumer]? = some c ∧
    gu.channels.channel c s = some ch

/-- Each stream that is taken has a channel of its own, to which there is one way. -/
structure OneProducer : Prop where
  made : ∀ c s, (∃ ch, gu.channels.channel c s = some ch) ↔ Takes gu.graphOutputStream.name gu.streams s c
  apart : ∀ c c' s s' ch, gu.channels.channel c s = some ch → gu.channels.channel c' s' = some ch → c' = c ∧ s' = s
  fed : ∀ c s ch, gu.channels.channel c s = some ch → ∃! l, gu.Feeds w l ch

/-- A graph input that a node takes. -/
def Taken (s : String) : Prop := s ∈ gu.graphInputStream.name ∧ ∃ node ∈ gu.nodes, s ∈ node.inputStream.name

end GraphUnit

def opsOf (p : Producer) (ops : List (Producer × ChannelOp)) : List ChannelOp :=
  (ops.filter fun e => e.1 = p).map Prod.snd

/-- A run of the graph by what is done to its channels: what each producer does is in the order in which the caller makes
the calls, or the node's Execute takes its steps. -/
structure ChannelRun (gu : GraphUnit) (w : Wiring) (cord : Producer → Order String (List Consumer)) where
  calls : List InputCall
  events : Nat → List NodeEvent
  ops : List (Producer × ChannelOp)
  present : ∀ e ∈ ops, Present gu.streams e.1
  inputs : opsOf .graphInput ops = calls.flatMap (gu.inputOps w cord)
  nodes : ∀ a < gu.nodes.length,
    opsOf (.node a) ops = (NodeLoop.init a).trace (gu.executeOps w cord a) (events a)

namespace ChannelRun

variable {gu : GraphUnit} {w : Wiring} {cord : Producer → Order String (List Consumer)}

/-- The caller closes the inputs once, and each Execute has come to its end. -/
structure Closes (run : ChannelRun gu w cord) : Prop where
  once : run.calls.count .close = 1
  returned : ∀ a < gu.nodes.length, ∃ t, (run.events a).foldlM NodeLoop.step (NodeLoop.init a) = some t ∧
    t.pos = .returned (.ok ())

/-- The caller adds no data for a node once it has closed the inputs. -/
def Orderly (run : ChannelRun gu w cord) : Prop :=
  ∀ pre post, run.calls = pre ++ .close :: post → ∀ s, gu.Taken s → .addGraphInputData s ∉ post

end ChannelRun

namespace NodeLoop

variable {s t : NodeLoop} {ops : NodeLoop → List ChannelOp}

/-- Only Execute moves on. -/
theorem step_pos {e : NodeEvent} (h : s.step e = some t) (he : ∀ oks err, e ≠ .execute oks err) : t.pos = s.pos := by
  cases step_moves h with
  | run => exact absurd rfl (he _ _)
  | lock => exact absurd rfl (he _ _)
  | leave => exact absurd rfl (he _ _)
  | unlock => exact absurd rfl (he _ _)
  | call => rfl
  | callLock => rfl
  | callUnlock => rfl

theorem mem_trace {es : List NodeEvent} {op : ChannelOp} (h : op ∈ s.trace ops es) : ∃ t, op ∈ ops t := by
  induction es generalizing s with
  | nil => cases h
  | cons e es ih =>
    rw [trace, List.mem_append] at h
    obtain hhead | htail := h
    · cases e with
      | execute => exact ⟨s, hhead⟩
      | destroy => cases hhead
      | getNodeErrorList => cases hhead
      | next => cases hhead
    · split at htail
      next => cases htail
      next t _ => exact ih htail

/-- When Execute has returned without an error, it has added all data some times and then closed the outputs. -/
theorem trace_returned {adds closes : List ChannelOp} (hprocess : ∀ s, s.pos = .process → ops s = adds)
    (hclose : ∀ s, s.pos = .close → ops s = closes)
    (hother : ∀ s, s.pos ≠ .process → s.pos ≠ .close → ops s = []) {es : List NodeEvent}
    (h : es.foldlM step s = some t) (ht : t.pos = .returned (.ok ())) :
    (∀ result, s.pos = .returned result → result = .ok () ∧ s.trace ops es = []) ∧
      ((∀ result, s.pos ≠ .returned result) → ∃ pre, s.trace ops es = pre ++ closes ∧ ∀ op ∈ pre, op ∈ adds) := by
  induction es generalizing s with
  | nil =>
    cases h
    exact ⟨fun result hs => ⟨ExecuteAt.returned.inj (hs.symm.trans ht), rfl⟩, fun hs => absurd ht (hs _)⟩
  | cons e es ih =>
    rw [List.foldlM_cons] at h
    obtain ⟨u, hu, h⟩ := Option.bind_eq_some_iff.mp h
    obtain ⟨hreturned, hruns⟩ := ih h
    by_cases he : ∃ oks err, e = .execute oks err
    · obtain ⟨oks, err, rfl⟩ := he
      have htrace : s.trace ops (.execute oks err :: es) = ops s ++ u.trace ops es := by rw [trace, hu, NodeEvent.ops]
      have hexecute : s.execute oks err = some u := hu
      rw [htrace]
      refine ⟨fun result hs => ?_, fun _ => ?_⟩
      · simp only [NodeLoop.execute, hs] at hexecute
        cases hexecute
      · -- before the last step Execute goes on; only Process adds data
        have hgoes : ops s = [] → (∀ result, u.pos ≠ .returned result) →
            ∃ pre, ops s ++ u.trace ops es = pre ++ closes ∧ ∀ op ∈ pre, op ∈ adds := by
          intro hops hu
          rw [hops, List.nil_append]
          exact hruns hu
        cases hs : s.pos with
        | start =>
          have hops := hother s (by simp [hs]) (by simp [hs])
          simp only [NodeLoop.execute, hs] at hexecute
          split at hexecute
          next =>
            cases hexecute
            cases (hreturned _ rfl).1
          next =>
            cases hexecute
            exact hgoes hops (by simp)
        | head =>
          have hops := hother s (by simp [hs]) (by simp [hs])
          simp only [NodeLoop.execute, hs] at hexecute
          split at hexecute <;> (cases hexecute; exact hgoes hops (by simp))
        | lock allok =>
          have hops := hother s (by simp [hs]) (by simp [hs])
          simp only [NodeLoop.execute, hs] at hexecute
          split at hexecute
          next =>
            cases hexecute
            exact hgoes hops (by simp)
          next => cases hexecute
        | held allok =>
          have hops := hother s (by simp [hs]) (by simp [hs])
          simp only [NodeLoop.execute, hs] at hexecute
          split at hexecute <;> (cases hexecute; exact hgoes hops (by simp))
        | process =>
          have hhead : u.pos = .head := by
            simp only [NodeLoop.execute, hs] at hexecute
            split at hexecute <;> (cases hexecute; rfl)
          obtain ⟨pre, hpre, hadds⟩ := hruns (by simp [hhead])
          refine ⟨adds ++ pre, ?_, ?_⟩
          · rw [hprocess s hs, hpre, List.append_assoc]
          · intro op hop
            exact (List.mem_append.mp hop).elim id (hadds op)
        | stop =>
          have hops := hother s (by simp [hs]) (by simp [hs])
          simp only [NodeLoop.execute, hs] at hexecute
          split at hexecute <;> (cases hexecute; exact hgoes hops (by simp))
        | close =>
          simp only [NodeLoop.execute, hs] at hexecute
          cases hexecute
          refine ⟨[], ?_, fun op hop => absurd hop List.not_mem_nil⟩
          rw [hclose s hs, (hreturned _ rfl).2, List.append_nil, List.nil_append]
        | returned result =>
          simp only [NodeLoop.execute, hs] at hexecute
          cases hexecute
    · have hpos := step_pos hu fun oks err heq => he ⟨oks, err, heq⟩
      have htrace : s.trace ops (e :: es) = u.trace ops es := by
        rw [trace, hu]
        simp only
        cases e with
        | execute oks err => exact absurd ⟨oks, err, rfl⟩ he
        | destroy => rfl
        | getNodeErrorList => rfl
        | next => rfl
      rw [htrace, ← hpos]
      exact ⟨hreturned, hruns⟩

end NodeLoop

section Ops

variable {ops : List (Producer × ChannelOp)} {ch : Nat} {p : Producer}

theorem mem_opsOf {op : ChannelOp} : op ∈ opsOf p ops ↔ (p, op) ∈ ops := by
  simp [opsOf]

/-- When only one producer comes to a channel, it is closed right if this producer does so. -/
theorem closedRight_iff_opsOf (h : ∀ e ∈ ops, e.2 = .send ch ∨ e.2 = .close ch → e.1 = p) :
    ClosedRight (ops.map Prod.snd) ch ↔ ClosedRight (opsOf p ops) ch := by
  have hcount : (ops.map Prod.snd).count (.close ch) = (opsOf p ops).count (.close ch) := by
    rw [opsOf, List.count_eq_countP, List.count_eq_countP, List.countP_map, List.countP_map, List.countP_filter]
    refine List.countP_congr fun e he => ?_
    simp only [Function.comp_apply, beq_iff_eq, Bool.and_eq_true, decide_eq_true_eq]
    exact ⟨fun hclose => ⟨hclose, h e he (.inr hclose)⟩, And.left⟩
  have hlast : (ops.map Prod.snd).Pairwise (fun op op' => ¬ (op = .close ch ∧ op' = .send ch)) ↔
      (opsOf p ops).Pairwise fun op op' => ¬ (op = .close ch ∧ op' = .send ch) := by
    rw [opsOf, List.pairwise_map, List.pairwise_map, List.pairwise_filter]
    refine List.Pairwise.iff_of_mem fun {e e'} he he' => ⟨fun hno _ _ => hno, fun hno hboth => ?_⟩
    exact hno (decide_eq_true (h e he (.inr hboth.1))) (decide_eq_true (h e' he' (.inl hboth.2))) hboth
  exact ⟨fun hright => ⟨hcount ▸ hright.once, hlast.mp hright.last⟩,
    fun hright => ⟨hcount.trans hright.once, hlast.mpr hright.last⟩⟩

/-- A producer that closes a channel once does right if it sends nothing to it then. -/
theorem closedRight_append {pre closes post : List ChannelOp} (hpre : .close ch ∉ pre)
    (hone : closes.count (.close ch) = 1) (hsend : .send ch ∉ closes) (hpost : .close ch ∉ post) :
    ClosedRight (pre ++ (closes ++ post)) ch ↔ .send ch ∉ post := by
  have hmem : .close ch ∈ closes := List.count_pos_iff.mp (by omega)
  apply Iff.intro
  · intro h hin
    obtain ⟨-, hrest, -⟩ := List.pairwise_append.mp h.last
    obtain ⟨-, -, hbetween⟩ := List.pairwise_append.mp hrest
    exact hbetween _ hmem _ hin ⟨rfl, rfl⟩
  · intro hno
    have hnone : ∀ op ∈ closes ++ post, op ≠ .send ch := by
      intro op hop heq
      subst heq
      exact (List.mem_append.mp hop).elim hsend hno
    refine ⟨?_, ?_⟩
    · rw [List.count_append, List.count_append, List.count_eq_zero.mpr hpre, List.count_eq_zero.mpr hpost, hone]
    · refine List.pairwise_append.mpr ⟨?_, ?_, fun op hop op' _ hboth => hpre (hboth.1 ▸ hop)⟩
      · exact List.Pairwise.imp_of_mem (fun hop _ _ hboth => hpre (hboth.1 ▸ hop))
          (List.pairwise_of_forall fun _ _ => trivial)
      · exact List.Pairwise.imp_of_mem (fun _ hop _ hboth => hnone _ hop hboth.2)
          (List.pairwise_of_forall fun _ _ => trivial)

end Ops

/-- An entry of a list is at one place if it is there once. -/
theorem existsUnique_place_iff {l : List String} {s : String} : (∃! i : Nat, l[i]? = some s) ↔ l.count s = 1 := by
  induction l with
  | nil => simp [ExistsUnique]
  | cons x l ih =>
    by_cases hx : x = s
    · subst hx
      rw [List.count_cons_self, Nat.add_eq_right, List.count_eq_zero]
      apply Iff.intro
      · intro h hmem
        obtain ⟨i, hi⟩ := List.mem_iff_getElem?.mp hmem
        have hnext : (x :: l)[i + 1]? = some x := by
          rw [List.getElem?_cons_succ]
          exact hi
        have hfirst : (x :: l)[0]? = some x := rfl
        exact absurd (h.unique hfirst hnext) (Nat.zero_ne_add_one i)
      · intro hno
        refine ⟨0, rfl, fun i hi => ?_⟩
        cases i with
        | zero => rfl
        | succ i =>
          rw [List.getElem?_cons_succ] at hi
          exact absurd (List.mem_of_getElem? hi) hno
    · rw [List.count_cons_of_ne hx, ← ih]
      apply Iff.intro
      · rintro ⟨i, hi, hone⟩
        cases i with
        | zero => exact absurd (Option.some.inj hi) hx
        | succ i => exact ⟨i, hi, fun j hj => Nat.succ.inj (hone (j + 1) hj)⟩
      · rintro ⟨i, hi, hone⟩
        refine ⟨i + 1, hi, fun j hj => ?_⟩
        cases j with
        | zero => exact absurd (Option.some.inj hj) hx
        | succ j => rw [hone j hj]

theorem mem_addDataOps {chs : Channels} {s : String} {cs : List Consumer}
    (hall : ∀ c ∈ cs, ∃ ch, chs.channel c s = some ch) {c : Consumer} {ch : Nat} (hc : c ∈ cs)
    (hch : chs.channel c s = some ch) : .send ch ∈ addDataOps chs s cs := by
  induction cs with
  | nil => cases hc
  | cons c' cs ih =>
    obtain ⟨⟨ch', hch'⟩, hall⟩ := List.forall_mem_cons.mp hall
    rw [addDataOps, hch']
    obtain rfl | hc := List.mem_cons.mp hc
    · rw [hch'] at hch
      cases hch
      exact List.mem_cons_self
    · exact List.mem_cons_of_mem _ (ih hall hc)

section Linked

variable {gu : GraphUnit} {w : Wiring} {cord : Producer → Order String (List Consumer)} {sortedNodes : List Nat}
  (hl : gu.LinkedRight w sortedNodes)
include hl

namespace GraphUnit

/-- The ways to a channel are those of the source of its stream. -/
theorem LinkedRight.link_feeds_iff {c : Consumer} {s : String} {ch : Nat} (hch : gu.channels.channel c s = some ch)
    {p : Producer} (hpresent : Present gu.streams p) (hp : ∀ p', Source gu.graphInputStream.name gu.streams s p' c → p' = p)
    {l : Link} : gu.Feeds w l ch ↔
      l.producer = p ∧ (gu.outputNames p)[l.output]? = some s ∧ (w.consumers p s)[l.consumer]? = some c := by
  apply Iff.intro
  · rintro ⟨s', c', hout, hnext, hch'⟩
    obtain ⟨rfl, rfl⟩ := hl.inj _ _ _ _ _ hch hch'
    have hpresent' : Present gu.streams l.producer := by
      have hmakes := makes_iff.mpr (List.mem_of_getElem? hout)
      cases hl' : l.producer with
      | graphInput => trivial
      | node a =>
        rw [hl'] at hmakes
        obtain ⟨node, hnode, -⟩ := hmakes
        exact (List.getElem?_eq_some_iff.mp hnode).1
    have hsource := ((hl.wired.mem l.producer s c hpresent').mp (List.mem_of_getElem? hnext)).2
    have heq := hp _ hsource
    subst heq
    exact ⟨rfl, hout, hnext⟩
  · rintro ⟨rfl, hout, hnext⟩
    exact ⟨s, c, hout, hnext, hch⟩

/-- There is one way to a channel if its source has the stream once among its outputs. -/
theorem LinkedRight.fed_iff {c : Consumer} {s : String} {ch : Nat} (hch : gu.channels.channel c s = some ch)
    {p : Producer} (hpresent : Present gu.streams p) (hsource : Source gu.graphInputStream.name gu.streams s p c)
    (hp : ∀ p', Source gu.graphInputStream.name gu.streams s p' c → p' = p) :
    (∃! l, gu.Feeds w l ch) ↔ (gu.outputNames p).count s = 1 := by
  have hmem := (hl.wired.mem p s c hpresent).mpr ⟨(hl.channel c s).mp ⟨ch, hch⟩, hsource⟩
  obtain ⟨k, hk⟩ := List.mem_iff_getElem?.mp hmem
  have hfeeds := fun l => hl.link_feeds_iff (l := l) hch hpresent hp
  rw [← existsUnique_place_iff]
  apply Iff.intro
  · rintro ⟨l, hone, hall⟩
    obtain ⟨-, hout, -⟩ := (hfeeds l).mp hone
    refine ⟨l.output, hout, fun i hi => ?_⟩
    have heq := hall ⟨p, i, k⟩ ((hfeeds _).mpr ⟨rfl, hi, hk⟩)
    rw [← heq]
  · rintro ⟨i, hi, hall⟩
    refine ⟨⟨p, i, k⟩, (hfeeds _).mpr ⟨rfl, hi, hk⟩, fun l hone => ?_⟩
    obtain ⟨hproducer, hout, hnext⟩ := (hfeeds l).mp hone
    have hplace := (List.getElem?_inj (List.getElem?_eq_some_iff.mp hnext).1 (hl.wired.nodup p s hpresent)).mp
      (hnext.trans hk.symm)
    cases l with
    | mk producer output consumer =>
      simp only at hproducer hout hplace
      rw [hproducer, hall output hout, hplace]

/-- The channels are fed once each if no graph input that a node takes is listed twice. -/
theorem LinkedRight.oneProducer_iff : gu.OneProducer w ↔ ∀ s, gu.Taken s → gu.graphInputStream.name.count s = 1 := by
  apply Iff.intro
  · rintro h s ⟨hs, unit, hunit, hin⟩
    obtain ⟨b, hb⟩ := List.mem_iff_getElem?.mp hunit
    have htakes : Takes gu.graphOutputStream.name gu.streams s (.node b) :=
      takes_iff.mpr (by rw [inputNames, hb]; exact hin)
    obtain ⟨ch, hch⟩ := (hl.channel _ s).mpr htakes
    obtain ⟨p, -, -, hp⟩ := hl.checked.source_unique htakes
    have hsource : Source gu.graphInputStream.name gu.streams s .graphInput (.node b) := ⟨hs, trivial⟩
    have heq := hp _ hsource
    exact (hl.fed_iff (p := .graphInput) hch trivial hsource (heq ▸ hp)).mp (h.fed _ s ch hch)
  · intro h
    refine ⟨hl.channel, fun c c' s s' ch hch hch' => ?_, fun c s ch hch => ?_⟩
    · obtain ⟨hc, hs⟩ := hl.inj _ _ _ _ _ hch hch'
      exact ⟨hc.symm, hs.symm⟩
    have htakes := (hl.channel c s).mp ⟨ch, hch⟩
    obtain ⟨p, hpresent, hsource, hp⟩ := hl.checked.source_unique htakes
    refine (hl.fed_iff hch hpresent hsource hp).mpr ?_
    cases p with
    | graphInput =>
      cases c with
      | node b =>
        obtain ⟨node, hnode, hin⟩ := htakes
        obtain ⟨unit, hunit, rfl⟩ := List.mem_map.mp (List.mem_of_getElem? hnode)
        exact h s ⟨hsource.1, unit, hunit, hin⟩
      | graphOutput => exact hsource.2.elim
    | node a =>
      obtain ⟨node, hnode, hout⟩ := hsource.1
      obtain ⟨unit, hunit, rfl⟩ := Option.map_eq_some_iff.mp ((List.getElem?_map ..).symm.trans hnode)
      have hnodup := (List.nodup_flatMap.mp hl.checked.outputs).1 _ (List.mem_of_getElem? hnode)
      rw [outputNames, hunit]
      exact List.count_eq_one_of_mem hnodup hout

/-- Only the source of its stream comes to a channel. -/
theorem LinkedRight.source_of_mem {c : Consumer} {s : String} {ch : Nat} (hch : gu.channels.channel c s = some ch)
    {p p' : Producer} (hpresent : Present gu.streams p')
    (hp : ∀ p', Source gu.graphInputStream.name gu.streams s p' c → p' = p) {op : ChannelOp}
    (hop : op = .send ch ∨ op = .close ch) (hmem : (∃ s', op ∈ addDataOps gu.channels s' (w.consumers p' s')) ∨
      op ∈ closeOps gu.channels ((cord p').run (w.next p'))) : p' = p := by
  obtain ⟨s', hadds⟩ | hcloses := hmem
  · obtain rfl | rfl := hop
    · obtain ⟨rfl, hc⟩ := send_mem_addDataOps hl.inj hch hadds
      exact hp p' ((hl.wired.mem p' s' c hpresent).mp hc).2
    · exact absurd hadds close_not_mem_addDataOps
  · obtain rfl | rfl := hop
    · exact absurd hcloses send_not_mem_closeOps
    · have hcount := count_closeOps hl.inj hch (cord p') fun s => hl.wired.nodup p' s hpresent
      have hpos := List.count_pos_iff.mpr hcloses
      rw [hcount] at hpos
      split at hpos
      next hc => exact hp p' ((hl.wired.mem p' s c hpresent).mp hc).2
      next => exact absurd hpos (Nat.lt_irrefl 0)

theorem LinkedRight.count_closeOps {c : Consumer} {s : String} {ch : Nat} (hch : gu.channels.channel c s = some ch)
    {p : Producer} (hpresent : Present gu.streams p) (hsource : Source gu.graphInputStream.name gu.streams s p c) :
    (closeOps gu.channels ((cord p).run (w.next p))).count (.close ch) = 1 := by
  rw [Dni.count_closeOps hl.inj hch (cord p) fun s => hl.wired.nodup p s hpresent]
  exact if_pos ((hl.wired.mem p s c hpresent).mpr ⟨(hl.channel c s).mp ⟨ch, hch⟩, hsource⟩)

end GraphUnit

namespace ChannelRun

variable {run : ChannelRun gu w cord}

theorem by_source {c : Consumer} {s : String} {ch : Nat} (hch : gu.channels.channel c s = some ch) {p : Producer}
    (hp : ∀ p', Source gu.graphInputStream.name gu.streams s p' c → p' = p) :
    ∀ e ∈ run.ops, e.2 = .send ch ∨ e.2 = .close ch → e.1 = p := by
  rintro ⟨p', op⟩ he hop
  have hmem : op ∈ opsOf p' run.ops := mem_opsOf.mpr he
  have hpresent := run.present _ he
  suffices hadds : (∃ s', op ∈ addDataOps gu.channels s' (w.consumers p' s')) ∨
      op ∈ closeOps gu.channels ((cord p').run (w.next p')) from hl.source_of_mem hch hpresent hp hop hadds
  cases p' with
  | graphInput =>
    rw [run.inputs] at hmem
    obtain ⟨call, -, hcall⟩ := List.mem_flatMap.mp hmem
    cases call with
    | addGraphInputData stream => exact .inl ⟨stream, hcall⟩
    | close => exact .inr hcall
  | node a =>
    rw [Present, GraphUnit.streams, List.length_map] at hpresent
    rw [run.nodes a hpresent] at hmem
    obtain ⟨t, ht⟩ := NodeLoop.mem_trace hmem
    unfold GraphUnit.executeOps at ht
    split at ht
    next =>
      obtain ⟨stream, -, hadds⟩ := List.mem_flatMap.mp ht
      exact .inl ⟨stream, hadds⟩
    next => exact .inr ht
    next => cases ht

/-- A node closes its channels right. -/
theorem closedRight_node (hrun : run.Closes) {c : Consumer} {s : String} {ch a : Nat}
    (hch : gu.channels.channel c s = some ch) (ha : a < gu.nodes.length)
    (hsource : Source gu.graphInputStream.name gu.streams s (.node a) c) : ClosedRight (opsOf (.node a) run.ops) ch := by
  obtain ⟨t, ht, hreturned⟩ := hrun.returned a ha
  have hprocess : ∀ s : NodeLoop, s.pos = .process → gu.executeOps w cord a s = gu.addAllOps w a := fun s hs => by
    rw [GraphUnit.executeOps, hs]
  have hclose : ∀ s : NodeLoop, s.pos = .close →
      gu.executeOps w cord a s = closeOps gu.channels ((cord (.node a)).run (w.node a)) := fun s hs => by
    rw [GraphUnit.executeOps, hs]
  have hother : ∀ s : NodeLoop, s.pos ≠ .process → s.pos ≠ .close → gu.executeOps w cord a s = [] := by
    intro s hp hc
    unfold GraphUnit.executeOps
    split <;> trivial
  obtain ⟨-, htrace⟩ := NodeLoop.trace_returned hprocess hclose hother ht hreturned
  obtain ⟨pre, hpre, hadds⟩ := htrace (by simp [NodeLoop.init])
  have hpresent : Present gu.streams (.node a) := by
    rwa [Present, GraphUnit.streams, List.length_map]
  rw [run.nodes a ha, hpre, ← List.append_nil (closeOps _ _)]
  refine (closedRight_append (fun hin => ?_) (hl.count_closeOps hch hpresent hsource) send_not_mem_closeOps
    List.not_mem_nil).mpr List.not_mem_nil
  obtain ⟨stream, -, hmem⟩ := List.mem_flatMap.mp (hadds _ hin)
  exact close_not_mem_addDataOps hmem

/-- The channel of a graph input is closed right if the caller does not add to the input behind the close. -/
theorem closedRight_input (hrun : run.Closes) {c : Consumer} {s : String} {ch : Nat}
    (hch : gu.channels.channel c s = some ch) (hsource : Source gu.graphInputStream.name gu.streams s .graphInput c)
    {pre post : List InputCall} (hcalls : run.calls = pre ++ .close :: post) :
    ClosedRight (opsOf .graphInput run.ops) ch ↔ .addGraphInputData s ∉ post := by
  have honce := hrun.once
  rw [hcalls, List.count_append, List.count_cons_self] at honce
  have hno : ∀ calls : List InputCall, calls.count .close = 0 → .close ch ∉ calls.flatMap (gu.inputOps w cord) := by
    intro calls hzero hin
    obtain ⟨call, hcall, hmem⟩ := List.mem_flatMap.mp hin
    cases call with
    | addGraphInputData stream => exact close_not_mem_addDataOps hmem
    | close => exact List.count_eq_zero.mp hzero hcall
  rw [run.inputs, hcalls, List.flatMap_append, List.flatMap_cons]
  refine (closedRight_append (hno pre (by omega)) (hl.count_closeOps (p := .graphInput) hch trivial hsource) send_not_mem_closeOps
    (hno post (by omega))).trans (not_congr ?_)
  rw [List.mem_flatMap]
  apply Iff.intro
  · rintro ⟨call, hcall, hmem⟩
    cases call with
    | addGraphInputData stream =>
      obtain ⟨rfl, -⟩ := send_mem_addDataOps hl.inj hch hmem
      exact hcall
    | close => exact absurd hmem send_not_mem_closeOps
  · intro hin
    refine ⟨_, hin, mem_addDataOps (fun c' hc' => ?_) ?_ hch⟩
    · exact (hl.channel c' s).mpr ((hl.wired.mem .graphInput s c' trivial).mp hc').1
    · exact (hl.wired.mem .graphInput s c trivial).mpr ⟨(hl.channel c s).mp ⟨ch, hch⟩, hsource⟩

/-- The channels are closed right if the caller is orderly. -/
theorem closedRight_iff (hrun : run.Closes) :
    (∀ c s ch, gu.channels.channel c s = some ch → ClosedRight (run.ops.map Prod.snd) ch) ↔ run.Orderly := by
  have hsplit : ∃ pre post, run.calls = pre ++ .close :: post :=
    List.append_of_mem (List.count_pos_iff.mp (by rw [hrun.once]; exact Nat.one_pos))
  apply Iff.intro
  · rintro h pre post hcalls s ⟨hs, unit, hunit, hin⟩
    obtain ⟨b, hb⟩ := List.mem_iff_getElem?.mp hunit
    have htakes : Takes gu.graphOutputStream.name gu.streams s (.node b) :=
      GraphUnit.takes_iff.mpr (by rw [GraphUnit.inputNames, hb]; exact hin)
    obtain ⟨ch, hch⟩ := (hl.channel _ s).mpr htakes
    obtain ⟨p, -, -, hp⟩ := hl.checked.source_unique htakes
    have hsource : Source gu.graphInputStream.name gu.streams s .graphInput (.node b) := ⟨hs, trivial⟩
    have heq := hp _ hsource
    rw [← closedRight_input hl hrun hch hsource hcalls]
    exact (closedRight_iff_opsOf (by_source hl hch (heq ▸ hp))).mp (h _ s ch hch)
  · intro h c s ch hch
    have htakes := (hl.channel c s).mp ⟨ch, hch⟩
    obtain ⟨p, hpresent, hsource, hp⟩ := hl.checked.source_unique htakes
    rw [closedRight_iff_opsOf (by_source hl hch hp)]
    cases p with
    | graphInput =>
      obtain ⟨pre, post, hcalls⟩ := hsplit
      rw [closedRight_input hl hrun hch hsource hcalls]
      cases c with
      | node b =>
        obtain ⟨node, hnode, hin⟩ := htakes
        obtain ⟨unit, hunit, rfl⟩ := List.mem_map.mp (List.mem_of_getElem? hnode)
        exact h pre post hcalls s ⟨hsource.1, unit, hunit, hin⟩
      | graphOutput => exact hsource.2.elim
    | node a =>
      rw [Present, GraphUnit.streams, List.length_map] at hpresent
      exact closedRight_node hl hrun hch hpresent hsource

end ChannelRun

end Linked

/-- In an accepted graph there is one way to every channel, and in a run that closes all outputs every channel is closed
once and not sent to afterwards, exactly if no graph input that a node takes is listed twice and the caller adds nothing
for a node once it has closed the inputs. -/
theorem GraphUnit.one_producer_iff (gu : GraphUnit) (ord : EdgeOrders) (lord : Order String (List Nat))
    {nodeEdge : NodeEdges} {sortedNodes : List Nat}
    (h : gu.getNodeEdge ord = some (.ok (nodeEdge, sortedNodes)))
    (cord : Producer → Order String (List Consumer)) (run : ChannelRun gu (gu.wiring lord nodeEdge) cord)
    (hrun : run.Closes) :
    (gu.OneProducer (gu.wiring lord nodeEdge) ∧
      ∀ c s ch, gu.channels.channel c s = some ch → ClosedRight (run.ops.map Prod.snd) ch) ↔
    (∀ s, gu.Taken s → gu.graphInputStream.name.count s = 1) ∧ run.Orderly := by
  have hl := accepted_linked gu ord lord h
  exact and_congr hl.oneProducer_iff (ChannelRun.closedRight_iff hl hrun)

/-- The node's input is listed twice among those of the graph. -/
def listedTwice : GraphUnit := { oneNode with graphInputStream := ⟨["a", "a"]⟩ }

/-- A datum of each of the two streams named "a" comes to the channel of the node. -/
theorem GraphUnit.oneProducer_listedTwice :
    listedTwice.getNodeEdge ⟨.stored, fun _ => .stored⟩ = some (.ok (oneNodeEdge, [0])) ∧
      ¬ listedTwice.OneProducer (listedTwice.wiring .stored oneNodeEdge) := by
  refine ⟨rfl, fun h => ?_⟩
  have hchannel : listedTwice.channels.channel (.node 0) "a" = some 1 := rfl
  have hfirst : listedTwice.Feeds (listedTwice.wiring .stored oneNodeEdge) ⟨.graphInput, 0, 0⟩ 1 :=
    ⟨"a", .node 0, rfl, rfl, hchannel⟩
  have hsecond : listedTwice.Feeds (listedTwice.wiring .stored oneNodeEdge) ⟨.graphInput, 1, 0⟩ 1 :=
    ⟨"a", .node 0, rfl, rfl, hchannel⟩
  cases (h.fed _ _ _ hchannel).unique hfirst hsecond

/-- Execute of a node that is given one round of data. -/
def oneRound : List NodeEvent :=
  [.execute [] none, .execute [true, true] none, .execute [] none, .execute [] none, .execute [] none,
    .execute [false, false] none, .execute [] none, .execute [] none]

/-- A round of the graph, after which the inputs are closed. -/
def joinRun : ChannelRun joinGraph (joinGraph.wiring .stored joinEdge) (fun _ => .stored) where
  calls := [.addGraphInputData "a", .addGraphInputData "b", .close]
  events _ := oneRound
  ops := [(.graphInput, .send 1), (.graphInput, .send 2), (.node 0, .send 3), (.graphInput, .close 2), (.node 1, .send 0),
    (.graphInput, .close 1), (.node 0, .close 3), (.node 1, .close 0)]
  present := by simp [Present, joinGraph, GraphUnit.streams]
  inputs := rfl
  nodes a ha := by
    rcases a with _ | _ | a
    · rfl
    · rfl
    · cases Nat.not_lt_of_le (Nat.le_add_left 2 a) ha

theorem joinRun_closes : joinRun.Closes := ⟨rfl, fun a ha => by
  rcases a with _ | _ | a
  · exact ⟨_, rfl, rfl⟩
  · exact ⟨_, rfl, rfl⟩
  · cases Nat.not_lt_of_le (Nat.le_add_left 2 a) ha⟩

theorem GraphUnit.one_producer_iff_join : joinGraph.OneProducer (joinGraph.wiring .stored joinEdge) ∧
    ∀ c s ch, joinGraph.channels.channel c s = some ch → ClosedRight (joinRun.ops.map Prod.snd) ch := by
  refine (one_producer_iff joinGraph ⟨.stored, fun _ => .stored⟩ .stored rfl _ joinRun joinRun_closes).mpr ⟨?_, ?_⟩
  · rintro s ⟨hs, -⟩
    revert s
    decide
  · intro pre post hcalls s _ hin
    rcases pre with _ | ⟨_, _ | ⟨_, _ | ⟨_, pre⟩⟩⟩
    · cases hcalls
    · cases hcalls
    · cases hcalls
      cases hin
    · simp [joinRun] at hcalls

end Dni
