import Dni.ProtoCounter

namespace Dni.Dms

/-- The histograms are those of a list of packets. -/
structure TransStatData.Records (d : TransStatData) (metas : List FlowMeta) : Prop where
  src : d.src = GoMap.tally (·.rport) metas
  dst : d.dst = GoMap.tally (·.lport) metas
  flows : d.flows = GoMap.tally (·.toFlow) metas
  srcpeer : d.srcpeer = GoMap.tally FlowMeta.srcPeer metas
  dstpeer : d.dstpeer = GoMap.tally FlowMeta.dstPeer metas
  pp : d.pp = GoMap.crossTally (·.lport) FlowMeta.srcPeer metas

/-- The histograms add up to one number, and the peers of each port to the ports and to the peers. -/
structure TransStatData.AddsUp (d : TransStatData) (n : Nat) : Prop where
  flows : d.flows.total = n
  src : d.src.total = n
  dst : d.dst.total = n
  srcpeer : d.srcpeer.total = n
  dstpeer : d.dstpeer.total = n
  rows : ∀ port, d.dst.lookup port = (d.pp.lookup port).map GoMap.total
  columns : ∀ peer, d.srcpeer.count peer = d.pp.sumBy (·.count peer)

theorem TransStatData.Records.addsUp {d : TransStatData} {metas : List FlowMeta} (h : d.Records metas) :
    d.AddsUp metas.length where
  flows := by rw [h.flows, GoMap.total_tally]
  src := by rw [h.src, GoMap.total_tally]
  dst := by rw [h.dst, GoMap.total_tally]
  srcpeer := by rw [h.srcpeer, GoMap.total_tally]
  dstpeer := by rw [h.dstpeer, GoMap.total_tally]
  rows port := by rw [h.dst, h.pp, GoMap.lookup_tally_row FlowMeta.srcPeer]
  columns peer := by rw [h.srcpeer, h.pp, GoMap.count_tally_column fun m => m.lport]

theorem TransStatData.Records.countFlow {d : TransStatData} {metas : List FlowMeta} (h : d.Records metas)
    (m : FlowMeta) : (d.countFlow m).Records (metas ++ [m]) where
  src := by rw [GoMap.tally_concat, ← h.src]; rfl
  dst := by rw [GoMap.tally_concat, ← h.dst]; rfl
  flows := by rw [GoMap.tally_concat, ← h.flows]; rfl
  srcpeer := by rw [GoMap.tally_concat, ← h.srcpeer]; rfl
  dstpeer := by rw [GoMap.tally_concat, ← h.dstpeer]; rfl
  pp := by
    rw [GoMap.crossTally_concat (fun m => m.lport) FlowMeta.srcPeer metas m, ← h.pp]
    rfl

theorem TransStatData.Records.flag {d : TransStatData} {metas : List FlowMeta} (h : d.Records metas)
    (flag : GoMap UInt8 (List FlowMeta)) : ({ d with flag := flag } : TransStatData).Records metas :=
  ⟨h.src, h.dst, h.flows, h.srcpeer, h.dstpeer, h.pp⟩

theorem TransStatData.Records.metas {d : TransStatData} {metas : List FlowMeta} (h : d.Records metas)
    (ms : List FlowMeta) : ({ d with metas := ms } : TransStatData).Records metas :=
  ⟨h.src, h.dst, h.flows, h.srcpeer, h.dstpeer, h.pp⟩

/-- What the TCP statistics record: segments, each with its flags. -/
structure RecordsTCP (d : TransStatData) (flagStat : Option (GoMap UInt8 Nat)) (segs : List (UInt8 × FlowMeta)) :
    Prop where
  flows : d.Records (segs.map Prod.snd)
  flagStat : flagStat = some (GoMap.tally Prod.fst segs)
  flag : d.flag = GoMap.group Prod.fst Prod.snd segs

section Transport

variable {P S : Type} (g : Gopacket P S) {d : TransStatData}

/-- A packet adds one segment to all TCP statistics or to none. -/
theorem countTCP_records {segs : List (UInt8 × FlowMeta)} {flagStat : Option (GoMap UInt8 Nat)}
    (h : RecordsTCP d flagStat segs) (packet : P) (m : FlowMeta) (dstStat : Option (GoMap UInt16 Nat)) :
    ∃ segs', segs'.length ≤ segs.length + 1 ∧
      RecordsTCP (countTCP g packet m d dstStat flagStat).1 (countTCP g packet m d dstStat flagStat).2.2 segs' := by
  rw [h.flagStat]
  obtain ⟨f, m', _, heq⟩ | heq := countTCP_cases g packet m d dstStat (GoMap.tally Prod.fst segs)
  · rw [heq]
    refine ⟨segs ++ [(f, m')], by simp, ?_, ?_, ?_⟩
    · rw [List.map_append]
      exact (h.flows.countFlow m').flag _
    · rw [GoMap.tally_concat]
    · rw [GoMap.group_concat, ← h.flag]
  · rw [heq, ← h.flagStat]
    exact ⟨segs, Nat.le_succ _, h⟩

/-- A packet adds one datagram to all UDP statistics or to none. -/
theorem countDatagram_records (h : d.Records d.metas) (type : LayerType) (packet : P) (m : FlowMeta)
    (dstStat srcStat : Option (GoMap UInt16 Nat)) :
    (countDatagram g type packet m d dstStat srcStat).1.Records
        (countDatagram g type packet m d dstStat srcStat).1.metas ∧
      (countDatagram g type packet m d dstStat srcStat).1.metas.length ≤ d.metas.length + 1 := by
  obtain ⟨m', srcStat', _, heq⟩ | heq := countDatagram_cases g type packet m d dstStat srcStat
  · rw [heq]
    exact ⟨(h.countFlow m').metas _, by simp⟩
  · rw [heq]
    exact ⟨h, Nat.le_succ _⟩

end Transport

namespace ProtoCounter

variable {P S : Type} {g : Gopacket P S} {c : ProtoCounter S} {segs : List (UInt8 × FlowMeta)}

/-- The packets of the counted protocols. -/
def counted (c : ProtoCounter S) : Nat := c.tcp.total + c.udp.total + c.icmp.count

/-- The statistics are those of recorded segments and datagrams. -/
structure Holds (c : ProtoCounter S) (segs : List (UInt8 × FlowMeta)) : Prop where
  tcp : RecordsTCP c.raw.tcp c.tcp.flag segs
  tcpTotal : segs.length ≤ c.tcp.total
  udp : c.raw.udp.Records c.raw.udp.metas
  udpTotal : c.raw.udp.metas.length ≤ c.udp.total

/-- The consistency of the counters with one another. -/
structure Consistent (c : ProtoCounter S) : Prop where
  tcp : ∃ flags, c.tcp.flag = some flags ∧ c.raw.tcp.AddsUp flags.total ∧ flags.total ≤ c.tcp.total ∧
    ∀ f, flags.lookup f = (c.raw.tcp.flag.lookup f).map List.length
  udp : c.raw.udp.AddsUp c.raw.udp.metas.length
  udpTotal : c.raw.udp.metas.length ≤ c.udp.total
  ip : c.tcp.total + c.udp.total + c.icmp.count ≤ c.ip.count

theorem Holds.consistent (h : c.Holds segs) (hip : c.counted ≤ c.ip.count) : c.Consistent where
  tcp := by
    refine ⟨_, h.tcp.flagStat, ?_, ?_, ?_⟩
    · have hadds := h.tcp.flows.addsUp
      rw [List.length_map] at hadds
      rw [GoMap.total_tally]
      exact hadds
    · rw [GoMap.total_tally]
      exact h.tcpTotal
    · intro f
      rw [h.tcp.flag, GoMap.lookup_tally_group]
  udp := h.udp.addsUp
  udpTotal := h.udpTotal
  ip := hip

/-- What is agreed on depends on the statistics of TCP and UDP only. -/
theorem Holds.congr {c' : ProtoCounter S} (h : c.Holds segs) (hrawtcp : c'.raw.tcp = c.raw.tcp)
    (hrawudp : c'.raw.udp = c.raw.udp) (htcp : c'.tcp = c.tcp) (hudp : c'.udp = c.udp) : c'.Holds segs := by
  refine ⟨?_, ?_, ?_, ?_⟩
  · rw [hrawtcp, htcp]
    exact h.tcp
  · rw [htcp]
    exact h.tcpTotal
  · rw [hrawudp]
    exact h.udp
  · rw [hrawudp, hudp]
    exact h.udpTotal

theorem Holds.segment (h : c.Holds segs) {packet : P} {m : FlowMeta} {tcp : TransStatData}
    {port : Option (GoMap UInt16 Nat)} {flag : Option (GoMap UInt8 Nat)}
    (ht : countTCP g packet m c.raw.tcp c.tcp.port c.tcp.flag = (tcp, port, flag)) :
    ∃ segs', ({ c with raw := { c.raw with tcp := tcp }, tcp := ⟨c.tcp.total + 1, port, flag⟩ } :
      ProtoCounter S).Holds segs' := by
  obtain ⟨segs', hlen, hsegs⟩ := countTCP_records g h.tcp packet m c.tcp.port
  rw [ht] at hsegs
  exact ⟨segs', hsegs, hlen.trans (Nat.succ_le_succ h.tcpTotal), h.udp, h.udpTotal⟩

theorem Holds.datagram (h : c.Holds segs) {type : LayerType} {packet : P} {m : FlowMeta} {udp : TransStatData}
    {port srcPort : Option (GoMap UInt16 Nat)}
    (hu : countDatagram g type packet m c.raw.udp c.udp.port c.udp.srcPort = (udp, port, srcPort)) :
    ({ c with raw := { c.raw with udp := udp }, udp := ⟨c.udp.total + 1, port, srcPort⟩ } :
      ProtoCounter S).Holds segs := by
  obtain ⟨hrec, hlen⟩ := countDatagram_records g h.udp type packet m c.udp.port c.udp.srcPort
  rw [hu] at hrec hlen
  exact ⟨h.tcp, h.tcpTotal, hrec, hlen.trans (Nat.succ_le_succ h.udpTotal)⟩

/-- Of each whole packet one protocol is counted at most, with its segment or datagram. -/
theorem Counts.holds {m : FlowMeta} {c' : ProtoCounter S} (h : Counts g m c c') (hs : c.Holds segs) :
    (∃ segs', c'.Holds segs') ∧ c'.counted ≤ c.counted + 1 ∧ c'.ip.count = c.ip.count := by
  cases h with
  | ignored => exact ⟨⟨segs, hs⟩, Nat.le_succ _, rfl⟩
  | icmp hcount =>
    refine ⟨⟨segs, hs.congr rfl rfl rfl rfl⟩, ?_, rfl⟩
    simp only [counted, hcount]
    omega
  | segment hip ht =>
    obtain ⟨segs', hsegs⟩ := hs.segment ht
    refine ⟨⟨segs', hsegs.congr rfl rfl rfl rfl⟩, ?_, hip⟩
    simp only [counted]
    omega
  | datagram hip hu =>
    refine ⟨⟨segs, (hs.datagram hu).congr rfl rfl rfl rfl⟩, ?_, hip⟩
    simp only [counted]
    omega

/-- Between two packets the counters agree with what they record, and count no protocol more often
than whole packets. -/
def Sound (c : ProtoCounter S) : Prop := (∃ segs, c.Holds segs) ∧ c.counted ≤ c.ip.count

theorem Sound.congr {c' : ProtoCounter S} (h : c.Sound) (hraw : c'.raw = c.raw) (hip : c'.ip = c.ip)
    (hicmp : c'.icmp = c.icmp) (htcp : c'.tcp = c.tcp) (hudp : c'.udp = c.udp) : c'.Sound := by
  obtain ⟨⟨segs, hs⟩, hle⟩ := h
  refine ⟨⟨segs, hs.congr (by rw [hraw]) (by rw [hraw]) htcp hudp⟩, ?_⟩
  rw [counted, htcp, hudp, hicmp, hip]
  exact hle

theorem Sound.count (h : c.Sound) (packet : P) : (count g c packet).Sound := by
  unfold ProtoCounter.count
  split
  next => exact h.congr rfl rfl rfl rfl rfl
  next header _ =>
    split
    next => exact h.congr rfl rfl rfl rfl rfl
    next => exact h.congr rfl rfl rfl rfl rfl
    next ip s _ =>
      obtain ⟨⟨segs, hs⟩, hip⟩ := h
      have hs' : (countIP g ip { c with defrag := s }).Holds segs := hs.congr rfl rfl rfl rfl
      obtain ⟨hnext, hcounted, hcount⟩ := (countProtocol_counts g ip (ipMeta g ip) _ packet).holds hs'
      have hstep : (countProtocol g ip (ipMeta g ip) (countIP g ip { c with defrag := s }) packet).Sound := by
        refine ⟨hnext, ?_⟩
        rw [hcount]
        exact hcounted.trans (Nat.succ_le_succ hip)
      exact hstep.congr rfl rfl rfl rfl rfl

theorem Sound.select (h : c.Sound) (protos : List String) : (c.select protos).Sound := by
  fun_induction ProtoCounter.select c protos with
  | case1 c => exact h
  | case2 c protos => exact h.congr rfl rfl rfl rfl rfl
  | case3 c protos _ ih => exact ih (h.congr rfl rfl rfl rfl rfl)
  | case4 c protos _ _ ih => exact ih (h.congr rfl rfl rfl rfl rfl)
  | case5 c protos _ _ _ ih => exact ih (h.congr rfl rfl rfl rfl rfl)
  | case6 c protos _ _ _ _ ih => exact ih (h.congr rfl rfl rfl rfl rfl)
  | case7 c proto protos _ _ _ _ _ ih => exact ih h

theorem sound_new (protos : List String) : (new g protos).Sound := by
  have hstart : ({ defrag := g.newDefragmenter } : ProtoCounter S).Sound :=
    ⟨⟨[], ⟨⟨rfl, rfl, rfl, rfl, rfl, rfl⟩, rfl, rfl⟩, Nat.le_refl _, ⟨rfl, rfl, rfl, rfl, rfl, rfl⟩,
      Nat.le_refl _⟩, Nat.le_refl _⟩
  exact hstart.select protos

theorem Sound.run (h : c.Sound) (packets : List P) : (packets.foldl (ProtoCounter.count g) c).Sound := by
  induction packets generalizing c with
  | nil => exact h
  | cons packet packets ih => exact ih (h.count packet)

/-- Whatever is counted, the statistics of the protocols agree with one another. -/
theorem run_consistent {P S : Type} (g : Gopacket P S) (protos : List String) (packets : List P) :
    (run g protos packets).Consistent := by
  obtain ⟨⟨segs, hsegs⟩, hip⟩ := (sound_new (g := g) protos).run (g := g) packets
  exact hsegs.consistent hip

end ProtoCounter

end Dni.Dms
