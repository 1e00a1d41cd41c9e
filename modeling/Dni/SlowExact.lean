import Dni.SlowVisits

namespace Dni.Dms

open SortSearch

/-- The connections of a local port. -/
def localCount (conns : List ConnInfo) (port : UInt16) : Nat :=
  (conns.filter fun c => c.flow.lport = port).length

def flowsOf (conns : List ConnInfo) : GoMap Flow Unit :=
  GoMap.accumulate ConnInfo.flow () (fun _ _ => ()) conns ∅

theorem flowsOf_keys_perm {conns : List ConnInfo} (h : (conns.map ConnInfo.flow).Nodup) :
    (flowsOf conns).keys.Perm (conns.map ConnInfo.flow) := by
  rw [List.perm_ext_iff_of_nodup (AList.keys_nodup _) h]
  intro f
  rw [← AList.mem_keys, flowsOf, GoMap.mem_accumulate, List.mem_map]

/-- The flows of the ports, in the order in which the detection goes through them. -/
structure PortFlows (conns : List ConnInfo) (flows : List FlowStat) : Prop where
  sorted : flows.Pairwise fun a b => b.count ≤ a.count
  nodup : (flows.map FlowStat.key).Nodup
  mem : ∀ s, s ∈ flows ↔ (∃ c ∈ conns, c.flow.lport = s.key) ∧ s.count = localCount conns s.key

theorem groupByLport_spec (ch : SlowChoices) {conns : List ConnInfo}
    (h : (conns.map ConnInfo.flow).Nodup) :
    (groupByLport ch (flowsOf conns)).1 = conns.length ∧
      PortFlows conns (groupByLport ch (flowsOf conns)).2 := by
  have hperm := flowsOf_keys_perm h
  have hkeys : (ch.flows.keys (flowsOf conns)).Perm (conns.map ConnInfo.flow) :=
    (ch.flows.keys_perm _).trans hperm
  let stats : GoMap UInt16 (GoMap Flow Unit) := GoMap.accumulate Flow.lport ∅
    (fun fs f => fs.insert f ()) (ch.flows.keys (flowsOf conns)) ∅
  have hstat : ∀ p (fs : GoMap Flow Unit), stats.lookup p = some fs ↔
      (∃ c ∈ conns, c.flow.lport = p) ∧ fs = GoMap.accumulate id () (fun _ _ => ())
        ((ch.flows.keys (flowsOf conns)).filter fun f => f.lport = p) ∅ := by
    intro p fs
    have hex : (∃ f ∈ ch.flows.keys (flowsOf conns), f.lport = p) ↔ ∃ c ∈ conns, c.flow.lport = p := by
      simp only [hkeys.mem_iff, List.mem_map, exists_exists_and_eq_and]
    rw [GoMap.lookup_accumulate]
    split
    next hp =>
      rw [Option.some.injEq]
      exact ⟨fun he => ⟨hex.mp hp, he.symm⟩, fun he => he.2.symm⟩
    next hp => simp [mt hex.mpr hp]
  have hcount : ∀ p, (GoMap.accumulate id () (fun _ _ => ())
      ((ch.flows.keys (flowsOf conns)).filter fun f => f.lport = p) ∅).keys.length =
        localCount conns p := by
    intro p
    rw [GoMap.length_accumulate, List.map_id,
      List.Nodup.dedup ((hkeys.nodup_iff.mpr h).filter _), (hkeys.filter _).length_eq,
      List.filter_map, List.length_map]
    rfl
  refine ⟨by rw [groupByLport, hperm.length_eq, List.length_map], ?_, ?_, ?_⟩
  · refine (ch.byCount.sorted _).imp fun {a b} hab => ?_
    simpa [flowCountLess] using hab
  · have hp := ((ch.byCount.perm ((ch.stats.run stats).map fun e => ⟨e.1, e.2.keys.length⟩)).map
      FlowStat.key)
    apply hp.nodup_iff.mpr
    rw [List.map_map]
    exact ch.stats.keys_nodup stats
  · intro s
    change s ∈ ch.byCount.run ((ch.stats.run stats).map fun e => ⟨e.1, e.2.keys.length⟩) ↔ _
    rw [(ch.byCount.perm _).mem_iff, List.mem_map]
    apply Iff.intro
    · intro ⟨⟨p, fs⟩, he, hs⟩
      obtain ⟨hex, hfs⟩ := (hstat p fs).mp (ch.stats.mem_run.mp he)
      subst hs
      exact ⟨hex, hfs ▸ hcount p⟩
    · intro ⟨hex, hc⟩
      refine ⟨(s.key, _), ch.stats.mem_run.mpr ((hstat s.key _).mpr ⟨hex, rfl⟩), ?_⟩
      rw [hcount, ← hc]

/-- The connections of one local port with one remote host that have the same bytes in both buffers. -/
def localGroup (conns : List ConnInfo) (c : ConnInfo) : List ConnInfo :=
  conns.filter fun d =>
    d.flow.lport = c.flow.lport ∧ d.dst = c.dst ∧ d.send = c.send ∧ d.recv = c.recv

/-- The same with the ends exchanged. -/
def remoteGroup (conns : List ConnInfo) (c : ConnInfo) : List ConnInfo :=
  conns.filter fun d =>
    d.flow.rport = c.flow.rport ∧ d.src = c.src ∧ d.send = c.send ∧ d.recv = c.recv

/-- The connection is one of a slow attack on its local port. -/
structure Attacks (th : TcpConnUtilThreshold) (conns : List ConnInfo) (c : ConnInfo) : Prop where
  full : th.fullConn ≤ conns.length
  mem : c ∈ conns
  holds : ¬ (c.send = 0 ∧ c.recv = 0)
  many : th.perPortFullConn < (localGroup conns c).length

/-- The measurements that make the analyser look at the connections. -/
def Asked (msmt : List Measurement) : Prop :=
  ∃ m ∈ msmt, m.l2 = connAll ∨ m.l2 = connTcpSyn ∨ m.l2 = connTcpEstablished

/-- The connection is one of many with one local host and remote port, and that port is in use on
this side too, by as many connections as the threshold. -/
structure Joined (msmt : List Measurement) (th : TcpConnUtilThreshold) (conns : List ConnInfo)
    (d : ConnInfo) : Prop where
  asked : Asked msmt
  full : th.fullConn ≤ conns.length
  mem : d ∈ conns
  holds : ¬ (d.send = 0 ∧ d.recv = 0)
  many : th.perPortFullConn < (remoteGroup conns d).length
  used : ∃ c ∈ conns, c.flow.lport = d.flow.rport
  busy : th.perPortFullConn ≤ localCount conns d.flow.rport

theorem withPattern_eq {conns : List ConnInfo} {d : ConnInfo} (h : ¬ (d.send = 0 ∧ d.recv = 0)) :
    withPattern (conns.filter fun c => c.flow.rport = d.flow.rport) d.pattern = remoteGroup conns d := by
  unfold withPattern remoteGroup
  rw [List.filter_filter, List.filter_filter]
  apply List.filter_congr
  intro c _
  rw [Bool.eq_iff_iff]
  simp only [Bool.and_eq_true, decide_eq_true_eq, ConnInfo.pattern, Pattern.mk.injEq]
  apply Iff.intro
  · intro ⟨⟨hp, _⟩, hr⟩
    exact ⟨hr, hp⟩
  · intro ⟨hr, hsrc, hs, hv⟩
    refine ⟨⟨⟨hsrc, hs, hv⟩, ?_⟩, hr⟩
    rwa [hs, hv]

theorem mem_takeWhile_sorted {flows : List FlowStat} (h : flows.Pairwise fun a b => b.count ≤ a.count)
    (th : Int) (s : FlowStat) :
    s ∈ flows.takeWhile (fun s => th ≤ s.count) ↔ s ∈ flows ∧ th ≤ s.count := by
  induction flows with
  | nil => simp
  | cons a flows ih =>
    obtain ⟨ha, hrest⟩ := List.pairwise_cons.mp h
    by_cases hth : th ≤ a.count
    · rw [List.takeWhile_cons_of_pos (by simpa using hth), List.mem_cons, List.mem_cons, ih hrest]
      apply Iff.intro
      · intro hs
        rcases hs with hs | hs
        · exact ⟨Or.inl hs, hs ▸ hth⟩
        · exact ⟨Or.inr hs.1, hs.2⟩
      · intro ⟨hs, hc⟩
        exact hs.imp id fun hs => ⟨hs, hc⟩
    · rw [List.takeWhile_cons_of_neg (by simpa using hth)]
      apply iff_of_false (by simp)
      intro ⟨hs, hc⟩
      rcases List.mem_cons.mp hs with hs | hs
      · exact hth (hs ▸ hc)
      · have hle := ha s hs
        omega

def perPortOf (conns : List ConnInfo) : GoMap UInt16 (List ConnInfo) :=
  GoMap.accumulate (fun c : ConnInfo => c.flow.rport) [] (fun l c => l ++ [c]) conns ∅

/-- The steps of the detection are the groups of the remote ends, at ports used on this side. -/
theorem mem_slowVisits {conns : List ConnInfo} {flows : List FlowStat} (hf : PortFlows conns flows)
    (ch : SlowChoices) (th : Int) {v : SlowVisit} :
    v ∈ slowVisits ch (perPortOf conns) th flows ↔
      v = ⟨v.first.flow.rport, v.first.pattern, v.first⟩ ∧ ¬ (v.first.send = 0 ∧ v.first.recv = 0) ∧
      (remoteGroup conns v.first).head? = some v.first ∧ th < (remoteGroup conns v.first).length ∧
      (∃ c ∈ conns, c.flow.lport = v.first.flow.rport) ∧
      th ≤ localCount conns v.first.flow.rport := by
  simp only [slowVisits, List.mem_flatMap, mem_portVisits, mem_takeWhile_sorted hf.sorted, hf.mem,
    perPortOf, perPort_getD]
  obtain ⟨port, pattern, first⟩ := v
  simp only
  apply Iff.intro
  · intro h
    rcases h with ⟨s, ⟨⟨hused, hcount⟩, hth⟩, hport, hhead, hlt⟩
    have hmem := List.mem_of_head? hhead
    simp only [withPattern, List.mem_filter, decide_eq_true_eq] at hmem
    obtain ⟨⟨⟨_, hr⟩, hholds⟩, hp⟩ := hmem
    subst hp
    rw [← hr] at hport hhead hlt hused hcount
    subst hport
    rw [withPattern_eq hholds] at hhead hlt
    exact ⟨rfl, hholds, hhead, hlt, hused, by rwa [hcount] at hth⟩
  · intro h
    rcases h with ⟨heq, hholds, hhead, hlt, hused, hth⟩
    injection heq with hport hpattern _
    subst hport hpattern
    refine ⟨⟨first.flow.rport, localCount conns first.flow.rport⟩, ⟨⟨hused, rfl⟩, hth⟩, rfl, ?_⟩
    rw [withPattern_eq hholds]
    exact ⟨hhead, hlt⟩

end Dni.Dms
