import Dni.FloodExact

namespace Dni.Dms

open Loops

/-- The histogram of sources holds every source with the number of its packets. -/
theorem mem_sip {ch : Choices} {data : List PktMeta} {c : IPCount} :
    c ∈ (calcTransStat ch data).sip ↔
      (∃ m ∈ data, m.rip = c.ip) ∧ c.count = (data.filter (·.rip = c.ip)).length := by
  have hcount : ∀ (l : List PktMeta) (n : Nat), l.foldl (fun n _ => n + 1) n = n + l.length := by
    intro l
    induction l with
    | nil => simp
    | cons m l ih =>
      intro n
      rw [List.foldl_cons, ih, List.length_cons]
      omega
  rw [calcTransStat, mem_sortIPCountMapByCount, countBy, GoMap.lookup_accumulate]
  split
  next h => rw [and_iff_right h, hcount, eq_comm]; simp
  next h => simp [h]

section Detection

variable {F : Type} [FloatArith F] (sch : Schedule F) (th : ProtoThreshold F) (cap : Capability)
  (ct : CtInfo)

/-- The count above which a source of UDP packets is taken for an attacker. -/
def udpThresh (stat : ProtoStat F) : Nat :=
  toUint64 (estimatedThresh (th.getPPSThreshold protoStrUdp true) stat.ratio)

/-- On such a device no rule that matches every TCP packet is made, and where the sources of a UDP
flood are dropped one by one, no established peer sent more packets than the threshold. -/
structure SparesTraffic (dev : String) (stat : ProtoStat F) : Prop where
  nullFlag : ¬ estimatedSpeed stat.tcpTotal stat.ratio < th.getPPSThreshold protoStrTcp true →
    ∀ n, stat.tcpFlag.lookup 0 = some n →
      estimatedSpeed n stat.ratio < th.getPPSThreshold protoStrTcp true
  udpPeers : ¬ estimatedSpeed stat.udpTotal stat.ratio < th.getPPSThreshold protoStrTcp true →
    udpRandom (sch.diag dev .udp) cap (udpThresh th stat)
        (calcTransStat (sch.diag dev .udp) stat.rawUdpMetas).sip = true ∨
      ∀ m ∈ stat.rawUdpMetas,
        udpThresh th stat < (stat.rawUdpMetas.filter (·.rip = m.rip)).length → m.rip ∉ ct.est

variable (tcp udp : PortInfo)

theorem icmpResponds_safe (dev : String) {stat : ProtoStat F} (h : stat.Sources) :
    ∀ r ∈ icmpResponds sch th cap ct dev stat, r.Safe ct tcp udp := by
  intro r hr
  unfold icmpResponds at hr
  dsimp only at hr
  split at hr
  next => simp at hr
  next k _ hfind =>
    rw [List.mem_singleton] at hr
    subst hr
    refine diagICMPAttack_safe ct tcp udp _ cap fun c hc => ?_
    refine h.icmpsrc c.ip ?_
    rw [← AList.mem_keys]
    exact GoMap.mem_iff_lookup.mpr ⟨_, mem_sortIPCountMapByCount.mp hc⟩

omit [FloatArith F] in
theorem tcpFlag_texts (dev : String) {stat : ProtoStat F} (h : stat.Sources) (flag : UInt8) :
    ∀ c ∈ (calcTransStat (sch.diag dev (.tcp flag)) ((stat.rawTcpFlag.lookup flag).getD [])).sip,
      ∃ a, c.ip = uitoa a := by
  apply sip_texts
  intro m hm
  cases hl : stat.rawTcpFlag.lookup flag with
  | none => simp [hl] at hm
  | some metas =>
    rw [hl, Option.getD_some] at hm
    exact h.tcpMetas flag metas hl m hm

/-- The rule for packets without flags matches all of TCP; every other flag gives safe rules. -/
theorem tcpFlagRespond_safe_iff (dev : String) {stat : ProtoStat F} (h : stat.Sources) (flag : UInt8) :
    ∃ rs, tcpFlagRespond sch th cap ct tcp dev stat flag = some rs ∧
      ((∀ r ∈ rs, r.Safe ct tcp udp) ↔ flag ≠ 0) := by
  have hsip := tcpFlag_texts sch dev h flag
  unfold tcpFlagRespond
  dsimp only
  split
  next h0 =>
    refine ⟨_, rfl, iff_of_false (fun hs => ?_) fun hne => hne h0⟩
    have hsafe := (safe_some ct tcp udp rfl).mp (hs _ (List.mem_singleton.mpr rfl))
    have hsel := (hsafe _ (RuleSet.mem_new.mpr ⟨_, List.mem_singleton.mpr rfl, rfl⟩)).selective
    rw [genTCPFlagRule, limited_toMatch] at hsel
    simp at hsel
  next h0 =>
    split
    next =>
      obtain ⟨r, hr, hs⟩ := diagTCPSynFlood_safe ct tcp udp (sch.diag dev (.tcp flag))
        { dev := dev, type := [flagmap flag, .tcp] } cap hsip
      exact ⟨[r], by rw [hr]; rfl, iff_of_true (by simpa using hs) h0⟩
    next =>
      split
      next =>
        obtain ⟨r, hr, hs⟩ := diagTCPFlood_safe ct tcp udp (sch.diag dev (.tcp flag))
          { dev := dev, type := [flagmap flag, .tcp] } flag
          (toUint64 (estimatedThresh (th.getPPSThreshold protoStrTcp true) stat.ratio)) th cap hsip
        exact ⟨[r], by rw [hr]; rfl, iff_of_true (by simpa using hs) h0⟩
      next => exact ⟨[], rfl, iff_of_true (by simp) h0⟩

theorem tcpResponds_safe_iff (dev : String) {stat : ProtoStat F} (h : stat.Sources) :
    ∃ rs, tcpResponds sch th cap ct tcp dev stat = some rs ∧
      ((∀ r ∈ rs, r.Safe ct tcp udp) ↔
        (¬ estimatedSpeed stat.tcpTotal stat.ratio < th.getPPSThreshold protoStrTcp true →
          ∀ n, stat.tcpFlag.lookup 0 = some n →
            estimatedSpeed n stat.ratio < th.getPPSThreshold protoStrTcp true)) := by
  unfold tcpResponds
  dsimp only
  split
  next hslow => exact ⟨[], rfl, iff_of_true (by simp) fun hc => absurd hslow hc⟩
  next hfast =>
    have hflag : ∀ e ∈ (sch.flags dev).run stat.tcpFlag,
        ∃ rs, (if estimatedSpeed e.2 stat.ratio < th.getPPSThreshold protoStrTcp true then some []
          else tcpFlagRespond sch th cap ct tcp dev stat e.1) = some rs ∧
        ((∀ r ∈ rs, r.Safe ct tcp udp) ↔
          (¬ estimatedSpeed e.2 stat.ratio < th.getPPSThreshold protoStrTcp true → e.1 ≠ 0)) := by
      rintro ⟨flag, count⟩ _
      dsimp only
      split
      next hslow => exact ⟨[], rfl, iff_of_true (by simp) fun hc => absurd hslow hc⟩
      next hc =>
        obtain ⟨rs, hrs, hs⟩ := tcpFlagRespond_safe_iff sch th cap ct tcp udp dev h flag
        exact ⟨rs, hrs, hs.trans ⟨fun h _ => h, fun h => h hc⟩⟩
    obtain ⟨rs, hrs, hiff⟩ := mapM_flatten_iff hflag
    refine ⟨rs, hrs, hiff.trans ⟨fun hall _ n hn => ?_, fun hall e he hc h0 => ?_⟩⟩
    · by_contra hc
      exact hall (0, n) ((sch.flags dev).mem_run.mpr hn) hc rfl
    · exact hc (hall hfast e.2 (h0 ▸ (sch.flags dev).mem_run.mp he))

theorem udpResponds_safe_iff (dev : String) {stat : ProtoStat F} (h : stat.Sources) :
    ∃ rs, udpResponds sch th cap ct udp dev stat = some rs ∧
      ((∀ r ∈ rs, r.Safe ct tcp udp) ↔
        (¬ estimatedSpeed stat.udpTotal stat.ratio < th.getPPSThreshold protoStrTcp true →
          udpRandom (sch.diag dev .udp) cap (udpThresh th stat)
              (calcTransStat (sch.diag dev .udp) stat.rawUdpMetas).sip = true ∨
            ∀ m ∈ stat.rawUdpMetas,
              udpThresh th stat < (stat.rawUdpMetas.filter (·.rip = m.rip)).length →
                m.rip ∉ ct.est)) := by
  unfold udpResponds
  dsimp only
  split
  next hslow => exact ⟨[], rfl, iff_of_true (by simp) fun hc => absurd hslow hc⟩
  next hfast =>
    obtain ⟨r, hr, hs⟩ := diagUDPFlood_safe_iff ct tcp udp (sch.diag dev .udp)
      { dev := dev, type := [.udp] } (udpThresh th stat) cap
      (sip_texts (sch.diag dev .udp) h.udpMetas)
    have hheavy : (∀ c ∈ (calcTransStat (sch.diag dev .udp) stat.rawUdpMetas).sip,
        udpThresh th stat < c.count → c.ip ∉ ct.est) ↔ ∀ m ∈ stat.rawUdpMetas,
          udpThresh th stat < (stat.rawUdpMetas.filter (·.rip = m.rip)).length → m.rip ∉ ct.est := by
      constructor
      · intro hc m hm
        exact hc ⟨m.rip, _⟩ (mem_sip.mpr ⟨⟨m, hm, rfl⟩, rfl⟩)
      · intro hm c hc hth
        obtain ⟨⟨m, hmem, he⟩, hcount⟩ := mem_sip.mp hc
        rw [hcount] at hth
        rw [← he] at hth ⊢
        exact hm m hmem hth
    refine ⟨[r], by rw [udpThresh] at hr; rw [hr]; rfl, ?_⟩
    rw [List.forall_mem_singleton, hs, hheavy]
    exact ⟨fun h _ => h, fun h => h hfast⟩

theorem deviceResponds_safe_iff (pd : ProtoDiag F) (dev : String) {stat : ProtoStat F}
    (h : stat.Sources) :
    ∃ rs, deviceResponds sch th cap ct pd dev stat = some rs ∧
      ((∀ r ∈ rs, r.Safe ct pd.tcp pd.udp) ↔ SparesTraffic sch th cap ct dev stat) := by
  obtain ⟨ts, hts, htcp⟩ := tcpResponds_safe_iff sch th cap ct pd.tcp pd.udp dev h
  obtain ⟨us, hus, hudp⟩ := udpResponds_safe_iff sch th cap ct pd.tcp pd.udp dev h
  have hicmp := icmpResponds_safe sch th cap ct pd.tcp pd.udp dev h
  refine ⟨icmpResponds sch th cap ct dev stat ++ ts ++ us, by simp [deviceResponds, hts, hus], ?_⟩
  simp only [List.mem_append, or_imp, forall_and]
  constructor
  · intro h
    rcases h with ⟨⟨_, ht⟩, hu⟩
    exact ⟨htcp.mp ht, hudp.mp hu⟩
  · intro h
    rcases h with ⟨ht, hu⟩
    exact ⟨⟨hicmp, htcp.mpr ht⟩, hudp.mpr hu⟩

end Detection

/-- Flood detection ends with safe rules only, exactly when every device spares its traffic. -/
theorem floodAttackDetection_safe_iff {F : Type} [FloatArith F] (sch : Schedule F) (th : ProtoThreshold F)
    (cap : Capability) (ct : CtInfo) (pd : ProtoDiag F)
    (h : ∀ dev stat, pd.stat.lookup dev = some stat → stat.Consistent) :
    ∃ resps, floodAttackDetection sch th cap ct (some pd) = some resps ∧
      ((∀ r ∈ resps, r.Safe ct pd.tcp pd.udp) ↔
        ∀ dev stat, pd.stat.lookup dev = some stat → SparesTraffic sch th cap ct dev stat) := by
  have hdev : ∀ e ∈ sch.stat.run pd.stat, ∃ rs, deviceResponds sch th cap ct pd e.1 e.2 = some rs ∧
      ((∀ r ∈ rs, r.Safe ct pd.tcp pd.udp) ↔ SparesTraffic sch th cap ct e.1 e.2) := fun e he =>
    deviceResponds_safe_iff sch th cap ct pd e.1 (h e.1 e.2 (sch.stat.mem_run.mp he)).toSources
  obtain ⟨resps, hr, hiff⟩ := mapM_flatten_iff hdev
  refine ⟨resps, hr, hiff.trans ⟨fun hall dev stat hs => ?_, fun hall e he => ?_⟩⟩
  · exact hall (dev, stat) (sch.stat.mem_run.mpr hs)
  · exact hall e.1 e.2 (sch.stat.mem_run.mp he)

/-- Maps in stored order and insertion sort. -/
def storedChoices : Choices where
  ip := GoMap.Order.stored
  port := GoMap.Order.stored
  byCount := SortSearch.Sorter.insertionSort
    (fun a b c h h' => by simp only [ipCountLess, decide_eq_false_iff_not] at *; omega)
    (fun a b => by simp only [ipCountLess, decide_eq_false_iff_not]; omega)
  byStart := SortSearch.Sorter.insertionSort rangeLess_trans rangeLess_total

def storedSchedule : Schedule ℚ where
  stat := GoMap.Order.stored
  types _ := GoMap.Order.stored
  flags _ := GoMap.Order.stored
  diag _ _ := storedChoices

/-- An established peer that sends two datagrams to a listening port. -/
def busyPeerStat : ProtoStat ℚ where
  icmpType := ∅
  tcpTotal := 0
  tcpFlag := ∅
  udpTotal := 2
  rawIcmpsrc := ∅
  rawTcpFlag := ∅
  rawUdpMetas := [⟨"10.0.0.9", "10.0.0.1", 5000, 53⟩, ⟨"10.0.0.9", "10.0.0.1", 5000, 53⟩]
  ratio := 1

def busyPeer : ProtoDiag ℚ :=
  ⟨⟨∅⟩, ⟨AList.insert 53 () ∅⟩, AList.insert "eth0" busyPeerStat ∅⟩

def busyPeerCt : CtInfo := ⟨AList.insert "10.0.0.9" () ∅⟩

theorem busyPeer_lookup {dev : String} {stat : ProtoStat ℚ} (h : busyPeer.stat.lookup dev = some stat) :
    stat = busyPeerStat := by
  by_cases hd : dev = "eth0"
  · subst hd
    rw [busyPeer, AList.lookup_insert] at h
    exact (Option.some.inj h).symm
  · rw [busyPeer, AList.lookup_insert_ne hd, AList.lookup_empty] at h
    cases h

theorem busyPeer_consistent (dev : String) (stat : ProtoStat ℚ)
    (h : busyPeer.stat.lookup dev = some stat) : stat.Consistent := by
  have hstat := busyPeer_lookup h
  subst hstat
  have hsrc : busyPeerStat.Sources := by
    refine ⟨fun s hs => (List.not_mem_nil hs).elim, fun flag metas hm => (by cases hm), fun m hm => ?_⟩
    refine ⟨0x0a000009, ?_⟩
    simp only [busyPeerStat, List.mem_cons, List.not_mem_nil, or_false, or_self] at hm
    subst hm
    decide
  exact ⟨hsrc, fun flag => rfl, by decide, by decide⟩

/-- Another peer is established. -/
def otherPeerCt : CtInfo := ⟨AList.insert "10.0.0.8" () ∅⟩

theorem floodAttackDetection_safe_iff_otherPeer :
    (∀ dev stat, busyPeer.stat.lookup dev = some stat → stat.Consistent) ∧
    ∃ resps, floodAttackDetection storedSchedule ⟨1, ∅, 0⟩ ⟨2, 1⟩ otherPeerCt (some busyPeer) = some resps ∧
      ∀ r ∈ resps, r.Safe otherPeerCt busyPeer.tcp busyPeer.udp := by
  obtain ⟨resps, hrun, hiff⟩ := floodAttackDetection_safe_iff storedSchedule ⟨1, ∅, 0⟩ ⟨2, 1⟩ otherPeerCt busyPeer
    busyPeer_consistent
  refine ⟨busyPeer_consistent, resps, hrun, hiff.mpr ?_⟩
  intro dev stat h
  rw [busyPeer_lookup h]
  refine ⟨fun _ n hn => (by cases hn), fun _ => Or.inr ?_⟩
  intro m hm _
  simp only [busyPeerStat, List.mem_cons, List.not_mem_nil, or_false, or_self] at hm
  rw [hm]
  decide

/-- The established peer is blocked: the UDP path looks it up in an empty map. -/
theorem floodAttackDetection_blocks_peer :
    (∀ dev stat, busyPeer.stat.lookup dev = some stat → stat.Consistent) ∧
    ∃ resps, floodAttackDetection storedSchedule ⟨1, ∅, 0⟩ ⟨2, 1⟩ busyPeerCt (some busyPeer) = some resps ∧
      ∃ r ∈ resps, ¬ r.Safe busyPeerCt busyPeer.tcp busyPeer.udp := by
  refine ⟨busyPeer_consistent, ?_⟩
  have hrun : (floodAttackDetection storedSchedule ⟨1, ∅, 0⟩ ⟨2, 1⟩ busyPeerCt (some busyPeer)).map
      (·.map fun r => r.pattern.map fun rs => rs.rules.keys) =
        some [some [{ type := "l3", srcIP := "10.0.0.9/32" }]] := by decide +kernel
  obtain ⟨resps, hr, hkeys⟩ := Option.map_eq_some_iff.mp hrun
  obtain ⟨r, rest, rfl, hrk, _⟩ := List.map_eq_cons_iff.mp hkeys
  obtain ⟨rs, hrs, hk⟩ := Option.map_eq_some_iff.mp hrk
  refine ⟨_, hr, r, by simp, fun hsafe => ?_⟩
  have hmem : ({ type := "l3", srcIP := "10.0.0.9/32" } : Match) ∈ rs.rules := by
    rw [AList.mem_keys, hk, List.mem_singleton]
  exact (hsafe rs hrs _ hmem).spares 0x0a000009 (by decide) ⟨⟨0x0a000009, uint32Max⟩, by decide, rfl⟩

end Dni.Dms
