import Dni.CounterRecords
import Dni.FloodSafe
import Mathlib.Algebra.BigOperators.Ring.Finset

namespace Dni.Dms

/-- What the detector reads of the meta data of a packet. -/
def FlowMeta.pktMeta (m : FlowMeta) : PktMeta := ⟨m.rip, m.lip, m.rport, m.lport⟩

namespace ProtoCounter

variable {P S F : Type} {g : Gopacket P S} {c c' : ProtoCounter S} {T : String → Prop}

/-- What the detector reads of the counters of one device. -/
def protoStat (c : ProtoCounter S) (ratio : F) : ProtoStat F where
  icmpType := GoMap.mapVal Int.ofNat c.icmp.type
  tcpTotal := c.tcp.total
  tcpFlag := GoMap.mapVal Int.ofNat (c.tcp.flag.getD ∅)
  udpTotal := c.udp.total
  rawIcmpsrc := c.raw.icmpsrc
  rawTcpFlag := GoMap.mapVal (List.map FlowMeta.pktMeta) c.raw.tcp.flag
  rawUdpMetas := c.raw.udp.metas.map FlowMeta.pktMeta
  ratio := ratio

/-- The recorded sources are texts of one kind. -/
structure SourcesIn (T : String → Prop) (c : ProtoCounter S) : Prop where
  icmpsrc : ∀ s ∈ c.raw.icmpsrc, T s
  flag : ∀ f metas, c.raw.tcp.flag.lookup f = some metas → ∀ m ∈ metas, T m.rip
  metas : ∀ m ∈ c.raw.udp.metas, T m.rip

theorem SourcesIn.congr (h : c.SourcesIn T) (hicmp : c'.raw.icmpsrc = c.raw.icmpsrc)
    (htcp : c'.raw.tcp = c.raw.tcp) (hudp : c'.raw.udp = c.raw.udp) : c'.SourcesIn T := by
  refine ⟨?_, ?_, ?_⟩
  · rw [hicmp]
    exact h.icmpsrc
  · rw [htcp]
    exact h.flag
  · rw [hudp]
    exact h.metas

/-- A packet adds its own source at most. -/
theorem Counts.sourcesIn {m : FlowMeta} (h : Counts g m c c') (hsound : c.Sound) (hm : T m.rip)
    (hs : c.SourcesIn T) : c'.SourcesIn T := by
  cases h with
  | ignored => exact hs
  | icmp hcount =>
    refine ⟨?_, hs.flag, hs.metas⟩
    intro s hin
    obtain rfl | hin := (AList.mem_insert _).mp hin
    · exact hm
    · exact hs.icmpsrc s hin
  | @segment packet _ _ _ _ _ ht =>
    refine ⟨hs.icmpsrc, ?_, hs.metas⟩
    obtain ⟨⟨segs, hholds⟩, _⟩ := hsound
    obtain ⟨f, m', hrip, heq⟩ | heq := countTCP_cases g packet m c.raw.tcp c.tcp.port (GoMap.tally Prod.fst segs)
    · rw [← hholds.tcp.flagStat, ht] at heq
      cases heq
      intro f' metas hlook x hx
      rw [GoMap.lookup_insert_if] at hlook
      split at hlook
      next =>
        cases hlook
        obtain hx | hx := List.mem_append.mp hx
        · cases hold : c.raw.tcp.flag.lookup f with
          | none =>
            rw [hold] at hx
            cases hx
          | some old =>
            rw [hold] at hx
            exact hs.flag f old hold x hx
        · rw [List.mem_singleton.mp hx, hrip]
          exact hm
      next => exact hs.flag f' metas hlook x hx
    · rw [← hholds.tcp.flagStat, ht] at heq
      cases heq
      exact hs.flag
  | @datagram type packet _ _ _ _ _ hu =>
    refine ⟨hs.icmpsrc, hs.flag, ?_⟩
    obtain ⟨m', _, hrip, heq⟩ | heq := countDatagram_cases g type packet m c.raw.udp c.udp.port c.udp.srcPort
    · rw [hu] at heq
      cases heq
      intro x hx
      obtain hx | hx := List.mem_append.mp hx
      · exact hs.metas x hx
      · rw [List.mem_singleton.mp hx, hrip]
        exact hm
    · rw [hu] at heq
      cases heq
      exact hs.metas

/-- The sources that the headers give, once they are whole, are texts of one kind. -/
def Gopacket.GivesSources (g : Gopacket P S) (T : String → Prop) : Prop :=
  ∀ header s ip s', g.defragIPv4 header s = (.ok (some ip), s') → T (g.ipString ip.srcIP)

theorem SourcesIn.count (hg : Gopacket.GivesSources g T) (hsound : c.Sound) (hs : c.SourcesIn T) (packet : P) :
    (ProtoCounter.count g c packet).SourcesIn T := by
  unfold ProtoCounter.count
  split
  next => exact hs.congr rfl rfl rfl
  next header _ =>
    split
    next => exact hs.congr rfl rfl rfl
    next => exact hs.congr rfl rfl rfl
    next ip s hdefrag =>
      have hhead : (countIP g ip { c with defrag := s }).SourcesIn T := hs.congr rfl rfl rfl
      have hheadsound : (countIP g ip { c with defrag := s }).Sound := by
        obtain ⟨⟨segs, hholds⟩, hip⟩ := hsound
        exact ⟨⟨segs, hholds.congr rfl rfl rfl rfl⟩, hip.trans (Nat.le_succ _)⟩
      have hstep := (countProtocol_counts g ip (ipMeta g ip) _ packet).sourcesIn hheadsound
        (hg header c.defrag ip s hdefrag) hhead
      exact hstep.congr rfl rfl rfl

theorem SourcesIn.run (hg : Gopacket.GivesSources g T) (hsound : c.Sound) (hs : c.SourcesIn T)
    (packets : List P) : (packets.foldl (ProtoCounter.count g) c).SourcesIn T := by
  induction packets generalizing c with
  | nil => exact hs
  | cons packet packets ih => exact ih (hsound.count packet) (hs.count hg hsound packet)

theorem select_raw (c : ProtoCounter S) (protos : List String) : (c.select protos).raw = c.raw := by
  fun_induction ProtoCounter.select c protos with
  | case1 c => rfl
  | case2 c protos => rfl
  | case3 c protos _ ih => exact ih
  | case4 c protos _ _ ih => exact ih
  | case5 c protos _ _ _ ih => exact ih
  | case6 c protos _ _ _ _ ih => exact ih
  | case7 c proto protos _ _ _ _ _ ih => exact ih

theorem sourcesIn_new (protos : List String) : (new g protos).SourcesIn T := by
  have hstart : ({ defrag := g.newDefragmenter } : ProtoCounter S).SourcesIn T :=
    ⟨fun _ hs => absurd hs List.not_mem_nil, fun _ _ h => (by cases h), fun _ hm => absurd hm List.not_mem_nil⟩
  have hraw := select_raw ({ defrag := g.newDefragmenter } : ProtoCounter S) protos
  exact hstart.congr (by rw [new, hraw]) (by rw [new, hraw]) (by rw [new, hraw])

theorem Consistent.protoStat (hcons : c.Consistent) (hs : c.SourcesIn fun s => ∃ a, s = uitoa a) (ratio : F) :
    (c.protoStat ratio).Consistent := by
  obtain ⟨flags, hflags, _, htotal, hlook⟩ := hcons.tcp
  have htcpFlag : (c.protoStat ratio).tcpFlag = GoMap.mapVal Int.ofNat flags := by
    rw [ProtoCounter.protoStat, hflags]
    rfl
  refine ⟨⟨hs.icmpsrc, ?_, ?_⟩, ?_, ?_, ?_⟩
  · intro f metas hmetas m hm
    obtain ⟨ms, hms, rfl⟩ := Option.map_eq_some_iff.mp ((GoMap.lookup_mapVal _ _ _).symm.trans hmetas)
    obtain ⟨x, hx, rfl⟩ := List.mem_map.mp hm
    exact hs.flag f ms hms x hx
  · intro m hm
    obtain ⟨x, hx, rfl⟩ := List.mem_map.mp hm
    exact hs.metas x hx
  · intro f
    have hraw : (c.protoStat ratio).rawTcpFlag.lookup f =
        (c.raw.tcp.flag.lookup f).map (List.map FlowMeta.pktMeta) := GoMap.lookup_mapVal _ _ _
    rw [htcpFlag, hraw, GoMap.lookup_mapVal, hlook, Option.map_map, Option.map_map]
    congr 1
    funext metas
    simp
  · have hsum : ((GoMap.pairs (c.protoStat ratio).tcpFlag).map Prod.snd).sum = (flags.total : Int) := by
      rw [htcpFlag, GoMap.pairs_mapVal, List.map_map, GoMap.total, GoMap.sumBy, Nat.cast_list_sum, List.map_map]
      rfl
    rw [hsum]
    exact Int.ofNat_le.mpr htotal
  · have hlen : (c.protoStat ratio).rawUdpMetas.length = c.raw.udp.metas.length := List.length_map _
    rw [hlen]
    exact Int.ofNat_le.mpr hcons.udpTotal

/-- The flood detector finds the counters in agreement: its premises hold of everything that is counted. -/
theorem run_protoStat_consistent (hg : Gopacket.GivesSources g fun s => ∃ a, s = uitoa a) (protos : List String)
    (packets : List P) (ratio : F) : ((run g protos packets).protoStat ratio).Consistent := by
  have hsources := (sourcesIn_new (g := g) protos).run hg (sound_new protos) packets
  obtain ⟨⟨segs, hsegs⟩, hip⟩ := (sound_new (g := g) protos).run (g := g) packets
  exact (hsegs.consistent hip).protoStat hsources ratio

end ProtoCounter

end Dni.Dms
