import Dni.FloodAlarms

namespace Dni.Dms

open Loops

/-- Counters of one sampled device: a positive ratio, and no flag counted more often than TCP. -/
structure ProtoStat.Sampled (stat : ProtoStat ℚ) : Prop extends stat.Sources where
  ratio_pos : 0 < stat.ratio
  flag_le : ∀ f n, stat.tcpFlag.lookup f = some n → n ≤ stat.tcpTotal

/-- On such a device both thresholds judge UDP alike, and packets without TCP flags are no flood. -/
structure PlainTraffic (th : ProtoThreshold ℚ) (stat : ProtoStat ℚ) : Prop where
  udp : Floods th protoStrTcp stat stat.udpTotal ↔ Floods th protoStrUdp stat stat.udpTotal
  nullFlag : ∀ n, stat.tcpFlag.lookup 0 = some n → ¬ Floods th protoStrTcp stat n

theorem proto_flagmap {f : UInt8} (hk : f ∈ knownFlags) : (flagmap f).proto = some .tcp ↔ f ≠ 0 := by
  have hall : (knownFlags.all fun f => decide ((flagmap f).proto = some .tcp ↔ f ≠ 0)) = true := by decide
  exact decide_eq_true_eq.mp (List.all_eq_true.mp hall f hk)

section Parts

variable {th : ProtoThreshold ℚ} {stat : ProtoStat ℚ} {dev : String} {ic ts us : List AttackInfo}
  {flags : List UInt8}

theorem tcp_mem_type (hts : List.Forall₂ (TcpAlarm dev) flags ts) {r : AttackInfo} (hr : r ∈ ts) :
    ∃ f ∈ flags, r.type = [flagmap f, .tcp] := by
  obtain ⟨f, hf, ht, _⟩ := forall₂_exists_right hts.flip hr
  exact ⟨f, hf, ht⟩

theorem flagmap_not_datagram (f : UInt8) :
    (flagmap f).proto ≠ some .udp ∧ (flagmap f).proto ≠ some .icmp := by
  unfold flagmap
  split
  next => decide
  next =>
    split
    next => decide
    next =>
      split
      next => decide
      next => split <;> decide

/-- The TCP responds are the ones that carry the TCP type. -/
theorem filter_tcp (hic : ∀ r ∈ ic, r.dev = dev ∧ ∃ t : AT, t.proto = some .icmp ∧ r.type = [t])
    (hts : List.Forall₂ (TcpAlarm dev) flags ts) (hus : ∀ r ∈ us, r.dev = dev ∧ r.type = [.udp]) :
    (ic ++ ts ++ us).filter (AT.tcp ∈ ·.type) = ts := by
  have h1 : ic.filter (AT.tcp ∈ ·.type) = [] := List.filter_eq_nil_iff.mpr fun r hr => by
    obtain ⟨_, t, ht, he⟩ := hic r hr
    have hne : t ≠ AT.tcp := by
      intro e
      subst e
      cases ht
    simpa [he] using hne.symm
  have h2 : ts.filter (AT.tcp ∈ ·.type) = ts := List.filter_eq_self.mpr fun r hr => by
    obtain ⟨f, _, he⟩ := tcp_mem_type hts hr
    simp [he]
  have h3 : us.filter (AT.tcp ∈ ·.type) = [] := List.filter_eq_nil_iff.mpr fun r hr => by
    simp [(hus r hr).2]
  simp [List.filter_append, h1, h2, h3]

theorem udp_respond_iff (hic : ∀ r ∈ ic, r.dev = dev ∧ ∃ t : AT, t.proto = some .icmp ∧ r.type = [t])
    (hts : List.Forall₂ (TcpAlarm dev) flags ts) (hus : ∀ r ∈ us, r.dev = dev ∧ r.type = [.udp]) :
    (∃ r ∈ ic ++ ts ++ us, ∃ t ∈ r.type, t.proto = some .udp) ↔ us ≠ [] := by
  apply Iff.intro
  · intro h hnil
    obtain ⟨r, hr, t, ht, hp⟩ := h
    rw [hnil, List.append_nil] at hr
    rcases List.mem_append.mp hr with hr | hr
    · obtain ⟨_, u, hu, he⟩ := hic r hr
      rw [he, List.mem_singleton] at ht
      rw [ht, hu] at hp
      cases hp
    · obtain ⟨f, _, he⟩ := tcp_mem_type hts hr
      simp only [he, List.mem_cons, List.not_mem_nil, or_false] at ht
      rcases ht with ht | ht
      · exact (flagmap_not_datagram f).1 (ht ▸ hp)
      · subst ht
        cases hp
  · intro hne
    obtain ⟨r, hr⟩ := List.exists_mem_of_ne_nil us hne
    exact ⟨r, by simp [hr], .udp, by simp [(hus r hr).2], rfl⟩

theorem icmp_respond_iff (hic : ∀ r ∈ ic, r.dev = dev ∧ ∃ t : AT, t.proto = some .icmp ∧ r.type = [t])
    (hts : List.Forall₂ (TcpAlarm dev) flags ts) (hus : ∀ r ∈ us, r.dev = dev ∧ r.type = [.udp]) :
    (∃ r ∈ ic ++ ts ++ us, ∃ t ∈ r.type, t.proto = some .icmp) ↔ ic ≠ [] := by
  apply Iff.intro
  · intro h hnil
    obtain ⟨r, hr, t, ht, hp⟩ := h
    rw [hnil, List.nil_append] at hr
    rcases List.mem_append.mp hr with hr | hr
    · obtain ⟨f, _, he⟩ := tcp_mem_type hts hr
      simp only [he, List.mem_cons, List.not_mem_nil, or_false] at ht
      rcases ht with ht | ht
      · exact (flagmap_not_datagram f).2 (ht ▸ hp)
      · subst ht
        cases hp
    · rw [(hus r hr).2, List.mem_singleton] at ht
      subst ht
      cases hp
  · intro hne
    obtain ⟨r, hr⟩ := List.exists_mem_of_ne_nil ic hne
    obtain ⟨_, t, ht, he⟩ := hic r hr
    exact ⟨r, by simp [hr], t, by simp [he], ht⟩

/-- Only the respond for packets without flags sets types of two kinds. -/
theorem own_iff (hic : ∀ r ∈ ic, r.dev = dev ∧ ∃ t : AT, t.proto = some .icmp ∧ r.type = [t])
    (hk : ∀ f ∈ flags, f ∈ knownFlags) (hts : List.Forall₂ (TcpAlarm dev) flags ts)
    (hus : ∀ r ∈ us, r.dev = dev ∧ r.type = [.udp]) :
    (∀ r ∈ ic ++ ts ++ us, ∃ p : Proto, ∀ t ∈ r.type, t.proto = some p) ↔ 0 ∉ flags := by
  apply Iff.intro
  · intro h h0
    obtain ⟨r, hr, ht, _⟩ := forall₂_exists_right hts h0
    obtain ⟨p, hp⟩ := h r (by simp [hr])
    have hnone := hp (flagmap 0) (by simp [ht])
    cases hnone
  · intro h0 r hr
    rcases List.mem_append.mp hr with hr | hr
    · rcases List.mem_append.mp hr with hr | hr
      · obtain ⟨_, t, ht, he⟩ := hic r hr
        refine ⟨.icmp, fun u hu => ?_⟩
        rw [he, List.mem_singleton] at hu
        exact hu ▸ ht
      · obtain ⟨f, hf, he⟩ := tcp_mem_type hts hr
        refine ⟨.tcp, fun u hu => ?_⟩
        simp only [he, List.mem_cons, List.not_mem_nil, or_false] at hu
        rcases hu with hu | hu
        · have hne : f ≠ 0 := fun e => h0 (e ▸ hf)
          exact hu ▸ (proto_flagmap (hk f hf)).mpr hne
        · exact hu ▸ rfl
    · refine ⟨.udp, fun u hu => ?_⟩
      rw [(hus r hr).2, List.mem_singleton] at hu
      exact hu ▸ rfl

end Parts

variable (sch : Schedule ℚ) (th : ProtoThreshold ℚ) (cap : Capability) (ct : CtInfo)

theorem deviceResponds_alarms (pd : ProtoDiag ℚ) (dev : String) {stat : ProtoStat ℚ} (h : stat.Sampled) :
    ∃ rs, deviceResponds sch th cap ct pd dev stat = some rs ∧ (∀ r ∈ rs, r.dev = dev) ∧
      (AlarmsMatch th stat rs ↔ PlainTraffic th stat) := by
  obtain ⟨hic, hici⟩ := icmpResponds_alarms sch th cap ct dev stat
  obtain ⟨ts, flags, hts, hnd, hmem, hf⟩ :=
    tcpResponds_alarms sch th cap ct pd.tcp pd.udp dev h.toSources h.ratio_pos h.flag_le
  obtain ⟨us, hus, hu, hui⟩ := udpResponds_alarms sch th cap ct pd.udp dev h.toSources
  have hk : ∀ f ∈ flags, f ∈ knownFlags := fun f hf => ((hmem f).mp hf).1
  have hown := own_iff hic hk hf hu
  have hudp := udp_respond_iff hic hf hu
  have hicmp := icmp_respond_iff hic hf hu
  have hzero : 0 ∉ flags ↔ ∀ n, stat.tcpFlag.lookup 0 = some n → ¬ Floods th protoStrTcp stat n := by
    rw [hmem]
    have h0 : (0 : UInt8) ∈ knownFlags := by decide
    simp only [h0, true_and, not_exists, not_and]
  refine ⟨icmpResponds sch th cap ct dev stat ++ ts ++ us, by simp [deviceResponds, hts, hus], ?_, ?_⟩
  · intro r hr
    rcases List.mem_append.mp hr with hr | hr
    · rcases List.mem_append.mp hr with hr | hr
      · exact (hic r hr).1
      · obtain ⟨_, _, _, hd⟩ := forall₂_exists_right hf.flip hr
        exact hd
    · exact (hu r hr).1
  · apply Iff.intro
    · intro ha
      exact ⟨hui.symm.trans (hudp.symm.trans ha.udp), hzero.mp (hown.mp ha.own)⟩
    · intro hp
      refine ⟨hudp.trans (hui.trans hp.udp), hicmp.trans hici, ⟨flags, hnd, hmem, ?_⟩,
        hown.mpr (hzero.mpr hp.nullFlag)⟩
      rw [filter_tcp hic hf hu]
      exact hf.imp fun f r hr => by simp [hr.1]

/-- The responds of every device say what its counters say, exactly when both thresholds judge every
device's UDP alike and no device has a flood of packets without flags. -/
theorem floodAttackDetection_alarms_iff (pd : ProtoDiag ℚ)
    (h : ∀ dev stat, pd.stat.lookup dev = some stat → stat.Sampled) :
    ∃ resps, floodAttackDetection sch th cap ct (some pd) = some resps ∧
      ((∀ dev stat, pd.stat.lookup dev = some stat →
          AlarmsMatch th stat (resps.filter (·.dev = dev))) ↔
        ∀ dev stat, pd.stat.lookup dev = some stat → PlainTraffic th stat) := by
  have hdev : ∀ e ∈ sch.stat.run pd.stat, ∃ rs, deviceResponds sch th cap ct pd e.1 e.2 = some rs ∧
      (∀ r ∈ rs, r.dev = e.1) ∧ (AlarmsMatch th e.2 rs ↔ PlainTraffic th e.2) := fun e he =>
    deviceResponds_alarms sch th cap ct pd e.1 (h e.1 e.2 (sch.stat.mem_run.mp he))
  obtain ⟨yss, hyss, hf⟩ := mapM_forall₂ hdev
  have hall : ∀ e ∈ sch.stat.run pd.stat,
      (AlarmsMatch th e.2 (yss.flatten.filter (·.dev = e.1)) ↔ PlainTraffic th e.2) :=
    filter_flatten_key hf (sch.stat.keys_nodup pd.stat)
  refine ⟨yss.flatten, by rw [floodAttackDetection, hyss]; rfl, ?_⟩
  apply Iff.intro
  · intro ha dev stat hs
    exact (hall (dev, stat) (sch.stat.mem_run.mpr hs)).mp (ha dev stat hs)
  · intro hp dev stat hs
    exact (hall (dev, stat) (sch.stat.mem_run.mpr hs)).mpr (hp dev stat hs)

theorem busyPeer_sampled (dev : String) (stat : ProtoStat ℚ) (h : busyPeer.stat.lookup dev = some stat) :
    stat.Sampled := by
  have hstat : stat = busyPeerStat := busyPeer_lookup h
  have hsrc := (busyPeer_consistent dev stat h).toSources
  subst hstat
  exact ⟨hsrc, by decide +kernel, fun f n hf => by cases hf⟩

theorem floodAttackDetection_alarms_iff_busyPeer :
    (∀ dev stat, busyPeer.stat.lookup dev = some stat → stat.Sampled) ∧
    ∃ resps, floodAttackDetection storedSchedule ⟨1, ∅, 0⟩ ⟨2, 1⟩ busyPeerCt (some busyPeer) = some resps ∧
      ∀ dev stat, busyPeer.stat.lookup dev = some stat →
        AlarmsMatch ⟨1, ∅, 0⟩ stat (resps.filter (·.dev = dev)) := by
  obtain ⟨resps, hrun, hiff⟩ := floodAttackDetection_alarms_iff storedSchedule ⟨1, ∅, 0⟩ ⟨2, 1⟩ busyPeerCt busyPeer
    busyPeer_sampled
  refine ⟨busyPeer_sampled, resps, hrun, hiff.mpr ?_⟩
  intro dev stat h
  rw [busyPeer_lookup h]
  exact ⟨Iff.rfl, fun n hn => (by cases hn)⟩

/-- Two datagrams reach the UDP threshold of one, and are compared with the TCP threshold of ten. -/
theorem floodAttackDetection_misses_udp :
    (∀ dev stat, busyPeer.stat.lookup dev = some stat → stat.Sampled) ∧
    ∃ resps, floodAttackDetection storedSchedule ⟨1, AList.insert "tcp" 10 ∅, 0⟩ ⟨2, 1⟩ busyPeerCt
        (some busyPeer) = some resps ∧
      ∃ dev stat, busyPeer.stat.lookup dev = some stat ∧
        ¬ AlarmsMatch ⟨1, AList.insert "tcp" 10 ∅, 0⟩ stat (resps.filter (·.dev = dev)) := by
  have hrun : (floodAttackDetection storedSchedule ⟨1, AList.insert "tcp" 10 ∅, 0⟩ ⟨2, 1⟩ busyPeerCt
      (some busyPeer)).map List.length = some 0 := by decide +kernel
  obtain ⟨resps, hr, hlen⟩ := Option.map_eq_some_iff.mp hrun
  have hnil : resps = [] := List.length_eq_zero_iff.mp hlen
  refine ⟨busyPeer_sampled, resps, hr, "eth0", busyPeerStat, rfl, fun ha => ?_⟩
  have hfloods : Floods ⟨1, AList.insert "tcp" 10 ∅, 0⟩ protoStrUdp busyPeerStat busyPeerStat.udpTotal := by
    unfold Floods
    decide +kernel
  obtain ⟨r, hmem, _⟩ := ha.udp.mpr hfloods
  simp [hnil] at hmem

end Dni.Dms
