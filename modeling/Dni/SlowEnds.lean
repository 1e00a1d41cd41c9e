import Dni.SlowAttack

namespace Dni.Dms

open SortSearch

variable {msmt : List Measurement} {conns : List ConnInfo} {th : TcpConnUtilThreshold}
  {nicIP : GoMap String String}

/-- The step made for the group of a connection. -/
def visitOf (d : ConnInfo) : SlowVisit := ⟨d.flow.rport, d.pattern, d⟩

def visitsOf (ch : SlowChoices) (th : TcpConnUtilThreshold) (conns : List ConnInfo) : List SlowVisit :=
  slowVisits ch (perPortOf conns) th.perPortFullConn (portFlows ch conns)

theorem mem_visitsOf (ch : SlowChoices) (hn : (conns.map ConnInfo.flow).Nodup)
    (hasked : Asked msmt) (hfull : th.fullConn ≤ conns.length) {v : SlowVisit} :
    v ∈ visitsOf ch th conns ↔ ∃ d, Joined msmt th conns d ∧
      (remoteGroup conns d).head? = some d ∧ v = visitOf d := by
  have hflows : PortFlows conns (portFlows ch conns) := (groupByLport_spec ch hn).2
  rw [visitsOf, mem_slowVisits hflows]
  apply Iff.intro
  · intro ⟨hv, hholds, hhead, hmany, hused, hbusy⟩
    have hmem : v.first ∈ conns := (List.mem_filter.mp (List.mem_of_head? hhead)).1
    exact ⟨v.first, ⟨hasked, hfull, hmem, hholds, hmany, hused, hbusy⟩, hhead, hv⟩
  · intro ⟨d, hd, hhead, hv⟩
    subst hv
    exact ⟨rfl, hd.holds, hhead, hd.many, hd.used, hd.busy⟩

theorem mem_remoteGroup {c d : ConnInfo} : d ∈ remoteGroup conns c ↔ d ∈ conns ∧
    d.flow.rport = c.flow.rport ∧ d.src = c.src ∧ d.send = c.send ∧ d.recv = c.recv := by
  simp [remoteGroup]

/-- Every group has a first connection. -/
theorem Joined.first {d : ConnInfo} (h : Joined msmt th conns d) :
    ∃ f, Joined msmt th conns f ∧ (remoteGroup conns f).head? = some f ∧ f.src = d.src ∧
      f.flow.rport = d.flow.rport := by
  have hself : d ∈ remoteGroup conns d := mem_remoteGroup.mpr ⟨h.mem, rfl, rfl, rfl, rfl⟩
  obtain ⟨f, fs, hf⟩ := List.exists_cons_of_ne_nil (List.ne_nil_of_mem hself)
  have hmem : f ∈ remoteGroup conns d := hf ▸ List.mem_cons_self
  obtain ⟨hin, hport, hsrc, hsend, hrecv⟩ := mem_remoteGroup.mp hmem
  have hgroup : remoteGroup conns f = remoteGroup conns d := by
    simp only [remoteGroup, hport, hsrc, hsend, hrecv]
  refine ⟨f, ⟨h.asked, h.full, hin, ?_, ?_, ?_, ?_⟩, ?_, hsrc, hport⟩
  · rw [hsend, hrecv]
    exact h.holds
  · rw [hgroup]
    exact h.many
  · rw [hport]
    exact h.used
  · rw [hport]
    exact h.busy
  · rw [hgroup, hf]
    rfl

theorem exists_visit_iff (ch : SlowChoices) (hn : (conns.map ConnInfo.flow).Nodup)
    (hasked : Asked msmt) (hfull : th.fullConn ≤ conns.length) :
    visitsOf ch th conns ≠ [] ↔ ∃ d, Joined msmt th conns d := by
  apply Iff.intro
  · intro hne
    obtain ⟨v, vs, hv⟩ := List.exists_cons_of_ne_nil hne
    obtain ⟨d, hd, -, -⟩ := (mem_visitsOf ch hn hasked hfull).mp (hv ▸ List.mem_cons_self)
    exact ⟨d, hd⟩
  · intro ⟨d, hd⟩
    obtain ⟨f, hf, hhead, -, -⟩ := hd.first
    exact List.ne_nil_of_mem ((mem_visitsOf ch hn hasked hfull).mpr ⟨f, hf, hhead, rfl⟩)

theorem portVisits_port {ch : SlowChoices} {perPort : GoMap UInt16 (List ConnInfo)} {n : Int}
    {port : UInt16} {v : SlowVisit} (h : v ∈ portVisits ch perPort n port) : v.port = port :=
  ((mem_portVisits ch perPort n).mp h).1

/-- The steps go from the ports with more connections to those with fewer. -/
theorem visitsOf_sorted (ch : SlowChoices) (hn : (conns.map ConnInfo.flow).Nodup) :
    (visitsOf ch th conns).Pairwise fun v w => localCount conns w.port ≤ localCount conns v.port := by
  have hflows : PortFlows conns (portFlows ch conns) := (groupByLport_spec ch hn).2
  rw [visitsOf, slowVisits, List.pairwise_flatMap]
  have hsub := (List.takeWhile_sublist (fun s : FlowStat => decide (th.perPortFullConn ≤ s.count))
    (l := portFlows ch conns))
  apply And.intro
  · intro s hs
    apply List.pairwise_of_forall_mem_list
    intro v hv w hw
    rw [portVisits_port hv, portVisits_port hw]
  · have hmem : ∀ s ∈ (portFlows ch conns).takeWhile
        (fun s : FlowStat => decide (th.perPortFullConn ≤ s.count)),
        s.count = localCount conns s.key := fun s hs => ((hflows.mem s).mp (hsub.subset hs)).2
    refine (hflows.sorted.sublist hsub).imp_of_mem fun {a b} ha hb hab v hv w hw => ?_
    rw [portVisits_port hv, portVisits_port hw, ← hmem a ha, ← hmem b hb]
    exact hab

theorem last_visit (ch : SlowChoices) (hn : (conns.map ConnInfo.flow).Nodup) (hasked : Asked msmt)
    (hfull : th.fullConn ≤ conns.length) {v : SlowVisit} (h : (visitsOf ch th conns).getLast? = some v) :
    ∃ d, LastJoined msmt th conns d ∧ v = visitOf d := by
  obtain ⟨d, hd, hhead, hv⟩ := (mem_visitsOf ch hn hasked hfull).mp (List.mem_of_getLast? h)
  refine ⟨d, ⟨hd, hhead, ?_⟩, hv⟩
  intro e he
  obtain ⟨f, hf, hfirst, -, hport⟩ := he.first
  have hmem := (mem_visitsOf ch hn hasked hfull).mpr ⟨f, hf, hfirst, rfl⟩
  obtain ⟨ys, hys⟩ := List.getLast?_eq_some_iff.mp h
  have hsorted := @visitsOf_sorted conns th ch hn
  rw [hys] at hsorted hmem
  rw [← hport]
  rcases List.mem_append.mp hmem with hin | hin
  · have hle := (List.pairwise_append.mp hsorted).2.2 _ hin v (List.mem_singleton_self v)
    rwa [hv] at hle
  · have heq : visitOf f = v := List.mem_singleton.mp hin
    rw [hv] at heq
    have hp : f.flow.rport = d.flow.rport := congrArg SlowVisit.port heq
    rw [hp]

/-- Larger counts first, and of equal ones the port last. -/
def portLastLe (port : UInt16) (a b : FlowStat) : Bool :=
  decide (b.count < a.count) || (decide (a.count = b.count) && (decide (b.key = port) || decide (a.key ≠ port)))

theorem portLastLe_iff {port : UInt16} {a b : FlowStat} : portLastLe port a b = true ↔
    b.count < a.count ∨ a.count = b.count ∧ (b.key = port ∨ a.key ≠ port) := by
  simp [portLastLe]

theorem portLastLe_trans (port : UInt16) (a b c : FlowStat) (hab : portLastLe port a b = true)
    (hbc : portLastLe port b c = true) : portLastLe port a c = true := by
  rw [portLastLe_iff] at *
  rcases hab with hab | ⟨hab, hab'⟩
  · exact Or.inl (by omega)
  · rcases hbc with hbc | ⟨hbc, hbc'⟩
    · exact Or.inl (by omega)
    · refine Or.inr ⟨by omega, ?_⟩
      tauto

theorem portLastLe_total (port : UInt16) (a b : FlowStat) :
    (portLastLe port a b || portLastLe port b a) = true := by
  rw [Bool.or_eq_true, portLastLe_iff, portLastLe_iff]
  rcases Nat.lt_trichotomy a.count b.count with h | h | h
  · exact Or.inr (Or.inl h)
  · by_cases hb : b.key = port
    · exact Or.inl (Or.inr ⟨h, Or.inl hb⟩)
    · exact Or.inr (Or.inr ⟨h.symm, Or.inr hb⟩)
  · exact Or.inl (Or.inl h)

theorem portLastLe_refines (port : UInt16) (a b : FlowStat) (h : portLastLe port a b = true) :
    flowCountLess b a = false := by
  rw [portLastLe_iff] at h
  simp only [flowCountLess, decide_eq_false_iff_not]
  omega

/-- The choices that come to the port, and to the pattern there, as late as they can. -/
def lateChoices (port : UInt16) (k : Pattern) : SlowChoices where
  flows := GoMap.Order.stored
  stats := GoMap.Order.stored
  byCount := Sorter.ofLE (portLastLe port) (portLastLe_trans port) (portLastLe_total port)
    (portLastLe_refines port)
  patterns := fun _ => GoMap.Order.last k

theorem late_sorted (port : UInt16) (k : Pattern) (conns : List ConnInfo) :
    (portFlows (lateChoices port k) conns).Pairwise fun a b => portLastLe port a b = true :=
  List.pairwise_mergeSort (portLastLe_trans port) (portLastLe_total port) _

/-- The steps at a port end with the one that is made late. -/
theorem portVisits_late {d : ConnInfo} (h : Joined msmt th conns d)
    (hhead : (remoteGroup conns d).head? = some d) :
    ∃ vs, portVisits (lateChoices d.flow.rport d.pattern) (perPortOf conns) th.perPortFullConn
      d.flow.rport = vs ++ [visitOf d] := by
  have hgroup := @withPattern_eq conns d h.holds
  have hlookup : (filterCiBySendRecvQ (GoMap.Order.last d.pattern)
      (((perPortOf conns).lookup d.flow.rport).getD []) th.perPortFullConn).lookup d.pattern =
        some (remoteGroup conns d) := by
    rw [lookup_filterCi, perPortOf, perPort_getD, hgroup]
    refine ⟨rfl, ?_, h.many⟩
    intro hnil
    rw [hnil] at hhead
    cases hhead
  obtain ⟨es, hes⟩ := GoMap.Order.last_run hlookup
  have hunfold : portVisits (lateChoices d.flow.rport d.pattern) (perPortOf conns) th.perPortFullConn
      d.flow.rport = ((GoMap.Order.last d.pattern).run (filterCiBySendRecvQ
        (GoMap.Order.last d.pattern) (((perPortOf conns).lookup d.flow.rport).getD [])
          th.perPortFullConn)).filterMap fun e => e.2.head?.map (SlowVisit.mk d.flow.rport e.1) := rfl
  rw [hunfold, hes, List.filterMap_append]
  refine ⟨_, congrArg _ ?_⟩
  simp only [List.filterMap_cons, hhead, Option.map_some, List.filterMap_nil]
  rfl

/-- The ports that come late after a port have fewer flows than it. -/
theorem late_split (hn : (conns.map ConnInfo.flow).Nodup) (port : UInt16) (p : Pattern)
    (hmem : ⟨port, localCount conns port⟩ ∈ portFlows (lateChoices port p) conns) :
    ∃ before after, portFlows (lateChoices port p) conns = before ++ ⟨port, localCount conns port⟩ :: after ∧
      (∀ s ∈ before, localCount conns port ≤ s.count) ∧ ∀ s ∈ after, s.count < localCount conns port := by
  obtain ⟨before, after, hsplit⟩ := List.append_of_mem hmem
  have hflows : PortFlows conns (portFlows (lateChoices port p) conns) := (groupByLport_spec _ hn).2
  have hsorted := late_sorted port p conns
  have hnodup := hflows.nodup
  have hcounts := hflows.sorted
  rw [hsplit] at hnodup hcounts
  rw [hsplit, List.pairwise_append, List.pairwise_cons] at hsorted
  rw [List.pairwise_append] at hcounts
  refine ⟨before, after, hsplit, ?_, ?_⟩
  · intro s hs
    exact hcounts.2.2 s hs _ List.mem_cons_self
  · intro s hs
    rcases portLastLe_iff.mp (hsorted.2.1.1 s hs) with hlt | ⟨_, hkey⟩
    · exact hlt
    · rw [List.map_append, List.map_cons, List.nodup_append, List.nodup_cons] at hnodup
      have hnot := hnodup.2.1.1
      rcases hkey with hkey | hkey
      · have hin : s.key ∈ after.map FlowStat.key := List.mem_map_of_mem hs
        exact absurd (hkey ▸ hin) hnot
      · exact absurd rfl hkey

theorem exists_last_visit (hn : (conns.map ConnInfo.flow).Nodup) {d : ConnInfo}
    (h : LastJoined msmt th conns d) :
    ∃ ch, (visitsOf ch th conns).getLast? = some (visitOf d) := by
  let ch := lateChoices d.flow.rport d.pattern
  have hflows : PortFlows conns (portFlows ch conns) := (groupByLport_spec ch hn).2
  obtain ⟨before, after, hsplit, hmore, hfewer⟩ := late_split hn d.flow.rport d.pattern
    ((hflows.mem ⟨d.flow.rport, localCount conns d.flow.rport⟩).mpr ⟨h.used, rfl⟩)
  have hbefore : ∀ s ∈ before, decide (th.perPortFullConn ≤ s.count) = true := by
    intro s hs
    have hle := hmore s hs
    have hbusy := h.busy
    simp only [decide_eq_true_eq]
    omega
  obtain ⟨vs, hvs⟩ := portVisits_late h.toJoined h.first
  have hall : visitsOf ch th conns =
      before.flatMap (fun s => portVisits ch (perPortOf conns) th.perPortFullConn s.key) ++
        (vs ++ [visitOf d]) ++ (after.takeWhile fun s => decide (th.perPortFullConn ≤ s.count)).flatMap
          fun s => portVisits ch (perPortOf conns) th.perPortFullConn s.key := by
    rw [visitsOf, slowVisits, hsplit, List.takeWhile_append_of_pos hbefore, List.flatMap_append,
      List.takeWhile_cons_of_pos (by simpa using h.busy), List.flatMap_cons, hvs]
    simp only [List.append_assoc]
  have hnone : ((after.takeWhile fun s => decide (th.perPortFullConn ≤ s.count)).flatMap
      fun s => portVisits ch (perPortOf conns) th.perPortFullConn s.key) = [] := by
    apply List.eq_nil_iff_forall_not_mem.mpr
    intro v hv
    obtain ⟨s, hs, hvs'⟩ := List.mem_flatMap.mp hv
    have hin : v ∈ visitsOf ch th conns := by
      rw [hall]
      exact List.mem_append_right _ hv
    obtain ⟨e, he, -, heq⟩ := (mem_visitsOf ch hn h.asked h.full).mp hin
    have hkey : e.flow.rport = s.key := by
      rw [← portVisits_port hvs', heq]
      rfl
    have hs' : s ∈ after := List.takeWhile_subset _ hs
    have hcount := ((hflows.mem s).mp (hsplit ▸ List.mem_append_right _ (List.mem_cons_of_mem _ hs'))).2
    have hfewest := h.fewest e he
    have hless := hfewer s hs'
    rw [hkey, ← hcount] at hfewest
    omega
  refine ⟨ch, ?_⟩
  rw [hall, hnone, List.append_nil, ← List.append_assoc, List.getLast?_append]
  rfl

theorem visit_match (d : ConnInfo) : (visitOf d).rule.toMatch =
    { type := "l3l4", srcIP := d.src, ipProto := protoStrTcp, dstPort := portString d.flow.rport } := by
  rw [SlowVisit.rule, genL3l4Rule, limited_toMatch, if_neg (by decide)]
  rfl

theorem Attributed.joined {ch : SlowChoices} {c : ConnInfo} {r : SlowRespond}
    (hn : (conns.map ConnInfo.flow).Nodup) (hasked : Asked msmt) (hfull : th.fullConn ≤ conns.length)
    (hr : Responds nicIP (visitsOf ch th conns) r) (h : Attributed nicIP conns c r) :
    ∃ d, Joined msmt th conns d ∧ d.src = c.dst ∧ d.flow.rport = c.flow.lport := by
  obtain ⟨rs, hrs, m, hm, hsrc, hport⟩ := h.rule
  obtain ⟨rs', hrs', hrules⟩ := hr.rules
  cases Option.some.inj (hrs.symm.trans hrs')
  obtain ⟨v, hv, hmatch⟩ := (hrules m).mp hm
  obtain ⟨d, hd, -, rfl⟩ := (mem_visitsOf ch hn hasked hfull).mp hv
  rw [visit_match] at hmatch
  subst hmatch
  exact ⟨d, hd, hsrc, portString_inj hport⟩

theorem Responds.attributed {ch : SlowChoices} {c : ConnInfo} {r : SlowRespond}
    (hn : (conns.map ConnInfo.flow).Nodup) (hr : Responds nicIP (visitsOf ch th conns) r)
    (h : EndsAgree msmt conns th nicIP) (hc : Attacks th conns c) : Attributed nicIP conns c r := by
  obtain ⟨d, hd, hsrc, hport⟩ := h.seen c hc
  obtain ⟨f, hf, hhead, hfsrc, hfport⟩ := hd.first
  have hmem := (mem_visitsOf ch hn hd.asked hd.full).mpr ⟨f, hf, hhead, rfl⟩
  refine ⟨hr.type.mpr (List.ne_nil_of_mem hmem), ?_, ?_⟩
  · obtain ⟨rs, hrs, hrules⟩ := hr.rules
    refine ⟨rs, hrs, _, (hrules _).mpr ⟨_, hmem, visit_match f⟩, ?_, ?_⟩
    · exact hfsrc.trans hsrc
    · exact congrArg portString (hfport.trans hport)
  · obtain ⟨v, hv⟩ := Option.isSome_iff_exists.mp (List.getLast?_isSome.mpr (List.ne_nil_of_mem hmem))
    obtain ⟨e, he, rfl⟩ := last_visit ch hn hd.asked hd.full hv
    have hdev := hr.dev
    rw [hv] at hdev
    rw [hdev]
    exact h.dev c hc e he

/-- The detection is right, whatever the choices of the runtime, exactly if the ends agree. -/
theorem slowHttpDetection_correct_iff (msmt : List Measurement) (conns : List ConnInfo)
    (th : TcpConnUtilThreshold) (nicIP : GoMap String String)
    (hn : (conns.map ConnInfo.flow).Nodup) :
    (∀ ch, SlowCorrect ch msmt conns th nicIP) ↔ EndsAgree msmt conns th nicIP := by
  apply Iff.intro
  · intro h
    have hrun : ∀ c, Attacks th conns c → Asked msmt ∧ th.fullConn ≤ conns.length := by
      intro c hc
      by_contra hno
      obtain ⟨r, hr, -⟩ := (h (lateChoices 0 ⟨"", 0, 0⟩)).1 c hc
      rw [detectSlow_none _ hn hno] at hr
      cases hr
    refine ⟨?_, ?_, ?_⟩
    · intro c hc
      obtain ⟨hasked, hfull⟩ := hrun c hc
      obtain ⟨r, hr, hattr⟩ := (h (lateChoices 0 ⟨"", 0, 0⟩)).1 c hc
      obtain ⟨r', hr', hresp⟩ := @detectSlow_some msmt conns th nicIP _ hn hasked hfull
      cases Option.some.inj (hr.symm.trans hr')
      exact hattr.joined hn hasked hfull hresp
    · intro c hc d hd
      obtain ⟨ch, hlast⟩ := exists_last_visit hn hd
      obtain ⟨r, hr, hattr⟩ := (h ch).1 c hc
      obtain ⟨r', hr', hresp⟩ := @detectSlow_some msmt conns th nicIP ch hn hd.asked hd.full
      cases Option.some.inj (hr.symm.trans hr')
      have hdev := hresp.dev
      change r.dev = ((visitsOf ch th conns).getLast?.map _).getD "" at hdev
      rw [hlast] at hdev
      have hown := hattr.dev
      rw [hdev] at hown
      exact hown
    · intro ⟨d, hd⟩
      let ch := lateChoices 0 ⟨"", 0, 0⟩
      obtain ⟨r, hr, hresp⟩ := @detectSlow_some msmt conns th nicIP ch hn hd.asked hd.full
      have hne := (exists_visit_iff ch hn hd.asked hd.full).mpr ⟨d, hd⟩
      exact (h ch).2 r hr (hresp.type.mpr hne)
  · intro h ch
    apply And.intro
    · intro c hc
      obtain ⟨d, hd, -⟩ := h.seen c hc
      obtain ⟨r, hr, hresp⟩ := @detectSlow_some msmt conns th nicIP ch hn hd.asked hd.full
      exact ⟨r, hr, hresp.attributed hn h hc⟩
    · intro r hr htype
      by_cases hrun : Asked msmt ∧ th.fullConn ≤ conns.length
      · obtain ⟨r', hr', hresp⟩ := @detectSlow_some msmt conns th nicIP ch hn hrun.1 hrun.2
        cases Option.some.inj (hr.symm.trans hr')
        exact h.only ((exists_visit_iff ch hn hrun.1 hrun.2).mp (hresp.type.mp htype))
      · rw [detectSlow_none ch hn hrun] at hr
        cases hr

def slowReader (port : Int) : ConnInfo := ⟨"192.168.0.1", "10.0.0.9", "", 1, 0, 80, port⟩

def slowReaders : List ConnInfo := [slowReader 1001, slowReader 1002, slowReader 1003]

theorem slowReaders_distinct : (slowReaders.map ConnInfo.flow).Nodup := by decide +kernel

theorem slowHttpDetection_correct_iff_slowReaders :
    (slowReaders.map ConnInfo.flow).Nodup ∧
      ((∀ ch, SlowCorrect ch [⟨3, connAll⟩] slowReaders ⟨0, 1, 2⟩ (AList.insert "eth0" "192.168.0.1" ∅)) ↔
        EndsAgree [⟨3, connAll⟩] slowReaders ⟨0, 1, 2⟩ (AList.insert "eth0" "192.168.0.1" ∅)) :=
  ⟨slowReaders_distinct, slowHttpDetection_correct_iff _ _ _ _ slowReaders_distinct⟩

/-- Three slow readers of port 80 from one host are not told: they use three ports there. -/
theorem slowHttpDetection_misses :
    (slowReaders.map ConnInfo.flow).Nodup ∧ ¬ ∀ ch,
      SlowCorrect ch [⟨3, connAll⟩] slowReaders ⟨0, 1, 2⟩ (AList.insert "eth0" "192.168.0.1" ∅) := by
  apply And.intro slowReaders_distinct
  intro h
  have hattack : Attacks ⟨0, 1, 2⟩ slowReaders (slowReader 1001) :=
    ⟨by decide, List.mem_cons_self, by decide, by decide +kernel⟩
  have hasked : Asked [⟨3, connAll⟩] := ⟨_, List.mem_singleton_self _, Or.inl rfl⟩
  obtain ⟨r, hr, hattr⟩ := (h (lateChoices 0 ⟨"", 0, 0⟩)).1 _ hattack
  obtain ⟨r', hr', hresp⟩ := @detectSlow_some _ slowReaders ⟨0, 1, 2⟩
    (AList.insert "eth0" "192.168.0.1" ∅) _ slowReaders_distinct hasked hattack.full
  cases Option.some.inj (hr.symm.trans hr')
  obtain ⟨d, hd, hsrc, -⟩ := hattr.joined slowReaders_distinct hasked hattack.full hresp
  have hlocal : ∀ c ∈ slowReaders, c.src = "192.168.0.1" := by decide +kernel
  rw [hlocal d hd.mem] at hsrc
  exact absurd hsrc (by decide)

end Dni.Dms
