import Dni.DmsProtoDiag

namespace Dni.Dms

namespace ProtoCounter

variable {P S : Type} (g : Gopacket P S)

/-- What a counter holds of ICMP. -/
def icmpView (c : ProtoCounter S) : Bool × ICMPStat × GoMap String Nat := (c.fic, c.icmp, c.raw.icmpsrc)

/-- What a counter holds of TCP. -/
def tcpView (c : ProtoCounter S) : Bool × TCPStat × TransStatData := (c.ft, c.tcp, c.raw.tcp)

/-- What a counter holds of UDP and UDP-Lite, which share their counts. -/
def udpView (c : ProtoCounter S) : Bool × Bool × UDPStat × TransStatData := (c.fu, c.ful, c.udp, c.raw.udp)

/-- The packet that is decoded in place of one with a long payload. -/
def decodedAgain (type : LayerType) (ip : IPv4) (packet : P) : P :=
  if 26 < ip.payload.length then g.newPacket ip.payload type else packet

theorem reassembled_decoded (type : LayerType) (ip : IPv4) (c : ProtoCounter S) (packet : P) :
    ∃ stat, reassembled g type ip c packet = ({ c with ip := stat }, decodedAgain g type ip packet) := by
  unfold reassembled decodedAgain
  split
  next => exact ⟨_, rfl⟩
  next => exact ⟨c.ip, rfl⟩

/-- The four protocols that are counted, each under its flag. -/
inductive Counting (ip : IPv4) (m : FlowMeta) (packet : P) (c : ProtoCounter S) : ProtoCounter S → Prop
  | icmp (hp : ip.protocol = ipProtocolICMPv4) (hf : c.fic = true) : Counting ip m packet c
    { c with
      raw := { c.raw with icmpsrc := c.raw.icmpsrc.bump m.rip, icmpdst := c.raw.icmpdst.bump m.lip }
      icmp := countICMP g packet { c.icmp with count := c.icmp.count + 1 } }
  | tcp {stat : IPStat} (hp : ip.protocol = ipProtocolTCP) (hf : c.ft = true) : Counting ip m packet c
    (let counted := countTCP g (decodedAgain g .tcp ip packet) m c.raw.tcp c.tcp.port c.tcp.flag
    { c with ip := stat, raw := { c.raw with tcp := counted.1 }, tcp := ⟨c.tcp.total + 1, counted.2.1, counted.2.2⟩ })
  | datagram {stat : IPStat} (type : LayerType)
    (hp : ip.protocol = ipProtocolUDP ∧ type = .udp ∧ c.fu = true ∨
      ip.protocol = ipProtocolUDPLite ∧ type = .udpLite ∧ c.ful = true) : Counting ip m packet c
    (let counted := countDatagram g type (decodedAgain g type ip packet) m c.raw.udp c.udp.port c.udp.srcPort
    { c with ip := stat, raw := { c.raw with udp := counted.1 }, udp := ⟨c.udp.total + 1, counted.2.1, counted.2.2⟩ })
  | ignored (hicmp : ¬ (ip.protocol = ipProtocolICMPv4 ∧ c.fic = true))
    (htcp : ¬ (ip.protocol = ipProtocolTCP ∧ c.ft = true)) (hudp : ¬ (ip.protocol = ipProtocolUDP ∧ c.fu = true))
    (hlite : ¬ (ip.protocol = ipProtocolUDPLite ∧ c.ful = true)) : Counting ip m packet c c

theorem protocols_distinct : ipProtocolICMPv4 ≠ ipProtocolTCP ∧ ipProtocolICMPv4 ≠ ipProtocolUDP ∧
    ipProtocolICMPv4 ≠ ipProtocolUDPLite ∧ ipProtocolTCP ≠ ipProtocolUDP ∧ ipProtocolTCP ≠ ipProtocolUDPLite ∧
    ipProtocolUDP ≠ ipProtocolUDPLite := by
  decide

theorem countProtocol_counting (ip : IPv4) (m : FlowMeta) (packet : P) (c : ProtoCounter S) :
    Counting g ip m packet c (countProtocol g ip m c packet) := by
  obtain ⟨hit, hiu, hil, htu, htl, hul⟩ := protocols_distinct
  unfold countProtocol
  split
  next hp =>
    split
    next hf => exact .icmp hp hf
    next hf =>
      exact .ignored (fun h => hf h.2) (fun h => hit (hp.symm.trans h.1)) (fun h => hiu (hp.symm.trans h.1))
        (fun h => hil (hp.symm.trans h.1))
  next hni =>
    split
    next hp =>
      split
      next hf =>
        obtain ⟨stat, hr⟩ := reassembled_decoded g .tcp ip c packet
        rw [hr]
        exact .tcp hp hf
      next hf =>
        exact .ignored (fun h => hni h.1) (fun h => hf h.2) (fun h => htu (hp.symm.trans h.1))
          (fun h => htl (hp.symm.trans h.1))
    next hnt =>
      split
      next hp =>
        split
        next hf =>
          obtain ⟨stat, hr⟩ := reassembled_decoded g .udp ip c packet
          rw [hr]
          exact .datagram .udp (Or.inl ⟨hp, rfl, hf⟩)
        next hf =>
          exact .ignored (fun h => hni h.1) (fun h => hnt h.1) (fun h => hf h.2) (fun h => hul (hp.symm.trans h.1))
      next hnu =>
        split
        next hp =>
          split
          next hf =>
            obtain ⟨stat, hr⟩ := reassembled_decoded g .udpLite ip c packet
            rw [hr]
            exact .datagram .udpLite (Or.inr ⟨hp, rfl, hf⟩)
          next hf =>
            exact .ignored (fun h => hni h.1) (fun h => hnt h.1) (fun h => hnu h.1) (fun h => hf h.2)
        next hnl => exact .ignored (fun h => hni h.1) (fun h => hnt h.1) (fun h => hnu h.1) (fun h => hnl h.1)

section Step

variable {g} {ip : IPv4} {m : FlowMeta} {packet : P} {c c' : ProtoCounter S}

theorem Counting.defrag (h : Counting g ip m packet c c') : c'.defrag = c.defrag := by
  cases h <;> rfl

theorem Counting.icmpView (h : Counting g ip m packet c c') : c'.icmpView =
    if ip.protocol = ipProtocolICMPv4 ∧ c.fic = true then
      (c.fic, countICMP g packet { c.icmp with count := c.icmp.count + 1 }, c.raw.icmpsrc.bump m.rip)
    else c.icmpView := by
  obtain ⟨hit, hiu, hil, _⟩ := protocols_distinct
  cases h with
  | icmp hp hf => rw [if_pos ⟨hp, hf⟩]; rfl
  | tcp hp => rw [if_neg fun h => hit (h.1.symm.trans hp)]; rfl
  | datagram type hp =>
    rw [if_neg fun h => hp.elim (fun hp => hiu (h.1.symm.trans hp.1)) fun hp => hil (h.1.symm.trans hp.1)]
    rfl
  | ignored hicmp => rw [if_neg hicmp]

theorem Counting.tcpView (h : Counting g ip m packet c c') : c'.tcpView =
    if ip.protocol = ipProtocolTCP ∧ c.ft = true then
      let counted := countTCP g (decodedAgain g .tcp ip packet) m c.raw.tcp c.tcp.port c.tcp.flag
      (c.ft, ⟨c.tcp.total + 1, counted.2.1, counted.2.2⟩, counted.1)
    else c.tcpView := by
  obtain ⟨hit, _, _, htu, htl, _⟩ := protocols_distinct
  cases h with
  | icmp hp => rw [if_neg fun h => hit (hp.symm.trans h.1)]; rfl
  | tcp hp hf => rw [if_pos ⟨hp, hf⟩]; rfl
  | datagram type hp =>
    rw [if_neg fun h => hp.elim (fun hp => htu (h.1.symm.trans hp.1)) fun hp => htl (h.1.symm.trans hp.1)]
    rfl
  | ignored _ htcp => rw [if_neg htcp]

/-- What is counted of a datagram of one of the two kinds. -/
def datagramView (g : Gopacket P S) (type : LayerType) (ip : IPv4) (m : FlowMeta) (packet : P) (c : ProtoCounter S) :
    Bool × Bool × UDPStat × TransStatData :=
  let counted := countDatagram g type (decodedAgain g type ip packet) m c.raw.udp c.udp.port c.udp.srcPort
  (c.fu, c.ful, ⟨c.udp.total + 1, counted.2.1, counted.2.2⟩, counted.1)

theorem Counting.udpView (h : Counting g ip m packet c c') : c'.udpView =
    if ip.protocol = ipProtocolUDP ∧ c.fu = true then datagramView g .udp ip m packet c
    else if ip.protocol = ipProtocolUDPLite ∧ c.ful = true then datagramView g .udpLite ip m packet c
    else c.udpView := by
  obtain ⟨_, hiu, hil, htu, htl, hul⟩ := protocols_distinct
  cases h with
  | icmp hp => rw [if_neg fun h => hiu (hp.symm.trans h.1), if_neg fun h => hil (hp.symm.trans h.1)]; rfl
  | tcp hp => rw [if_neg fun h => htu (hp.symm.trans h.1), if_neg fun h => htl (hp.symm.trans h.1)]; rfl
  | datagram type hp =>
    obtain ⟨hp, rfl, hf⟩ | ⟨hp, rfl, hf⟩ := hp
    · rw [if_pos ⟨hp, hf⟩]; rfl
    · rw [if_neg fun h => hul (h.1.symm.trans hp), if_pos ⟨hp, hf⟩]; rfl
  | ignored _ _ hudp hlite => rw [if_neg hudp, if_neg hlite]

end Step

/-- A view of the counters that only the protocols change, and that tells what they make of it. -/
structure View {V : Type} (view : ProtoCounter S → V) : Prop where
  frame : ∀ (c : ProtoCounter S) total defrag stat src dst, view { c with
    total := total, defrag := defrag, ip := stat, raw := { c.raw with src := src, dst := dst } } = view c
  step : ∀ ip m packet (c c' : ProtoCounter S), view c = view c' →
    view (countProtocol g ip m c packet) = view (countProtocol g ip m c' packet)

section Views

theorem view_icmp : View g icmpView := by
  refine ⟨fun _ _ _ _ _ _ => rfl, fun ip m packet c c' h => ?_⟩
  have hc := (countProtocol_counting g ip m packet c).icmpView
  have hc' := (countProtocol_counting g ip m packet c').icmpView
  obtain ⟨hfic, hparts⟩ := Prod.mk.inj h
  obtain ⟨hicmp, hsrc⟩ := Prod.mk.inj hparts
  rw [hc, hc', h, hfic, hicmp, hsrc]

theorem view_tcp : View g tcpView := by
  refine ⟨fun _ _ _ _ _ _ => rfl, fun ip m packet c c' h => ?_⟩
  have hc := (countProtocol_counting g ip m packet c).tcpView
  have hc' := (countProtocol_counting g ip m packet c').tcpView
  obtain ⟨hft, hparts⟩ := Prod.mk.inj h
  obtain ⟨htcp, hraw⟩ := Prod.mk.inj hparts
  rw [hc, hc', h, hft, htcp, hraw]

theorem view_udp : View g udpView := by
  refine ⟨fun _ _ _ _ _ _ => rfl, fun ip m packet c c' h => ?_⟩
  have hc := (countProtocol_counting g ip m packet c).udpView
  have hc' := (countProtocol_counting g ip m packet c').udpView
  obtain ⟨hfu, hparts⟩ := Prod.mk.inj h
  obtain ⟨hful, hparts⟩ := Prod.mk.inj hparts
  obtain ⟨hudp, hraw⟩ := Prod.mk.inj hparts
  rw [hc, hc', h, datagramView, datagramView, datagramView, datagramView, hfu, hful, hudp, hraw]

variable {g} {V : Type} {view : ProtoCounter S → V} {c c' : ProtoCounter S}

theorem View.framed (hv : View g view) (h : view c = view c') (total total' : Nat) (defrag defrag' : S)
    (stat stat' : IPStat) (src dst src' dst' : GoMap String Nat) :
    view { c with total := total, defrag := defrag, ip := stat, raw := { c.raw with src := src, dst := dst } } =
      view { c' with
        total := total', defrag := defrag', ip := stat', raw := { c'.raw with src := src', dst := dst' } } :=
  (hv.frame c total defrag stat src dst).trans (h.trans (hv.frame c' total' defrag' stat' src' dst').symm)

/-- Counters that look alike are changed alike by a packet. -/
theorem View.count (hv : View g view) (hdefrag : c.defrag = c'.defrag) (h : view c = view c') (packet : P) :
    (ProtoCounter.count g c packet).defrag = (ProtoCounter.count g c' packet).defrag ∧
      view (ProtoCounter.count g c packet) = view (ProtoCounter.count g c' packet) := by
  unfold ProtoCounter.count
  rw [hdefrag]
  split
  next => exact ⟨rfl, hv.framed h (c.total + 1) (c'.total + 1) _ _ c.ip c'.ip _ _ _ _⟩
  next header _ =>
    split
    next => exact ⟨rfl, hv.framed h c.total c'.total _ _ c.ip c'.ip _ _ _ _⟩
    next => exact ⟨rfl, hv.framed h c.total c'.total _ _ c.ip c'.ip _ _ _ _⟩
    next ip s _ =>
      have hhead : view (countIP g ip { c with defrag := s }) = view (countIP g ip { c' with defrag := s }) :=
        hv.framed h c.total c'.total s s _ _ _ _ _ _
      have hstep := hv.step ip (ipMeta g ip) packet _ _ hhead
      refine ⟨?_, hv.framed hstep _ _ _ _ _ _ _ _ _ _⟩
      have hkept := (countProtocol_counting g ip (ipMeta g ip) packet (countIP g ip { c with defrag := s })).defrag
      have hkept' := (countProtocol_counting g ip (ipMeta g ip) packet (countIP g ip { c' with defrag := s })).defrag
      exact hkept.trans hkept'.symm

theorem View.foldl (hv : View g view) (hdefrag : c.defrag = c'.defrag) (h : view c = view c') (packets : List P) :
    view (packets.foldl (ProtoCounter.count g) c) = view (packets.foldl (ProtoCounter.count g) c') := by
  induction packets generalizing c c' with
  | nil => exact h
  | cons packet packets ih =>
    obtain ⟨hdefrag, h⟩ := hv.count hdefrag h packet
    exact ih hdefrag h

/-- What the protocols leave alone, no packet changes. -/
theorem View.still (hv : View g view) {v : V}
    (hstill : ∀ ip m packet c, view c = v → view (countProtocol g ip m c packet) = v)
    (h : view c = v) (packets : List P) : view (packets.foldl (ProtoCounter.count g) c) = v := by
  have hstep : ∀ c packet, view c = v → view (ProtoCounter.count g c packet) = v := by
    intro c packet h
    unfold ProtoCounter.count
    split
    next => exact (hv.frame c _ _ _ _ _).trans h
    next header _ =>
      split
      next => exact (hv.frame c _ _ _ _ _).trans h
      next => exact (hv.frame c _ _ _ _ _).trans h
      next ip s _ =>
        exact (hv.frame _ _ _ _ _ _).trans (hstill ip (ipMeta g ip) packet _ ((hv.frame c _ _ _ _ _).trans h))
  induction packets generalizing c with
  | nil => exact h
  | cons packet packets ih => exact ih (hstep c packet h)

/-- Protocols that are not selected are left alone. -/
theorem icmp_still (packets : List P) (h : c.icmpView = (false, {}, ∅)) :
    (packets.foldl (ProtoCounter.count g) c).icmpView = (false, {}, ∅) := by
  refine (view_icmp g).still (fun ip m packet c h => ?_) h packets
  have hoff : c.fic = false := congrArg Prod.fst h
  rw [(countProtocol_counting g ip m packet c).icmpView, if_neg (by simp [hoff]), h]

theorem tcp_still (packets : List P) (h : c.tcpView = (false, {}, {})) :
    (packets.foldl (ProtoCounter.count g) c).tcpView = (false, {}, {}) := by
  refine (view_tcp g).still (fun ip m packet c h => ?_) h packets
  have hoff : c.ft = false := congrArg Prod.fst h
  rw [(countProtocol_counting g ip m packet c).tcpView, if_neg (by simp [hoff]), h]

theorem udp_still (packets : List P) (h : c.udpView = (false, false, {}, {})) :
    (packets.foldl (ProtoCounter.count g) c).udpView = (false, false, {}, {}) := by
  refine (view_udp g).still (fun ip m packet c h => ?_) h packets
  have hoff : c.fu = false ∧ c.ful = false := ⟨congrArg Prod.fst h, congrArg (fun v => v.2.1) h⟩
  rw [(countProtocol_counting g ip m packet c).udpView, if_neg (by simp [hoff.1]), if_neg (by simp [hoff.2]), h]

end Views

section Selected

theorem parse_askedProtos (proto : SnmpUtil) : parseProtoIndicator (askedProtos proto) =
    if proto.icmp then ["all"] else (if proto.tcp then ["tcp"] else []) ++ if proto.udp then ["udp"] else [] := by
  unfold askedProtos
  cases proto.icmp <;> cases proto.udp <;> cases proto.tcp <;> decide

/-- The protocols of a counter that looks at all of them. UDP-Lite is counted with UDP where ICMP is asked for. -/
def plainProtos (proto : SnmpUtil) : List String := if proto.icmp then ["all"] else ["icmp", "tcp", "udp"]

/-- The counters that were asked for hold what the plain ones hold, and nothing of the other protocols. -/
structure CountsAsked (proto : SnmpUtil) (packets : List P) : Prop where
  icmp : (run g (parseProtoIndicator (askedProtos proto)) packets).icmpView =
    if proto.icmp then (run g (plainProtos proto) packets).icmpView else (false, {}, ∅)
  tcp : (run g (parseProtoIndicator (askedProtos proto)) packets).tcpView =
    if proto.icmp || proto.tcp then (run g (plainProtos proto) packets).tcpView else (false, {}, {})
  udp : (run g (parseProtoIndicator (askedProtos proto)) packets).udpView =
    if proto.icmp || proto.udp then (run g (plainProtos proto) packets).udpView else (false, false, {}, {})

theorem run_askedProtos (proto : SnmpUtil) (packets : List P) : CountsAsked g proto packets := by
  have hlist := parse_askedProtos proto
  have htcp : ∀ ps, (new g ps).tcpView = (true, {}, {}) → (new g ps).defrag = g.newDefragmenter →
      (run g ps packets).tcpView = (run g ["icmp", "tcp", "udp"] packets).tcpView :=
    fun _ h hdefrag => (view_tcp g).foldl hdefrag h packets
  have hudp : ∀ ps, (new g ps).udpView = (true, false, {}, {}) → (new g ps).defrag = g.newDefragmenter →
      (run g ps packets).udpView = (run g ["icmp", "tcp", "udp"] packets).udpView :=
    fun _ h hdefrag => (view_udp g).foldl hdefrag h packets
  refine ⟨?_, ?_, ?_⟩
  · rw [hlist, plainProtos]
    cases proto.icmp with
    | true => rfl
    | false => cases proto.tcp <;> cases proto.udp <;> exact icmp_still packets rfl
  · rw [hlist, plainProtos]
    cases proto.icmp with
    | true => rfl
    | false =>
      cases proto.tcp with
      | true => cases proto.udp <;> exact htcp _ rfl rfl
      | false => cases proto.udp <;> exact tcp_still packets rfl
  · rw [hlist, plainProtos]
    cases proto.icmp with
    | true => rfl
    | false =>
      cases proto.udp with
      | true => cases proto.tcp <;> exact hudp _ rfl rfl
      | false => cases proto.tcp <;> exact udp_still packets rfl

end Selected

end ProtoCounter

end Dni.Dms
