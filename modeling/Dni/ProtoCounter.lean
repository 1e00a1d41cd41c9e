import Dni.SlowDetection
import Dni.Lib.Histogram

namespace Dni.Dms

/-- The fields of a decoded IPv4 header that are read. -/
structure IPv4 where
  srcIP : IP
  dstIP : IP
  protocol : UInt8
  contents : List UInt8
  payload : List UInt8
deriving DecidableEq

/-- The fields of `layers.TCP`, `layers.UDP` and `layers.UDPLite` that are read. -/
structure TransLayer where
  srcPort : UInt16
  dstPort : UInt16
  contents : List UInt8
  payload : List UInt8
deriving DecidableEq

inductive LayerType
  | tcp
  | udp
  | udpLite
deriving DecidableEq

/-- The packet library: a layer is looked up together with the assertion of its type, and the
defragmenter answers from the headers that it has seen. -/
structure Gopacket (P S : Type) where
  ipv4 : P → Option IPv4
  icmpv4Type : P → Option UInt8
  trans : LayerType → P → Option TransLayer
  newPacket : List UInt8 → LayerType → P
  newDefragmenter : S
  defragIPv4 : IPv4 → S → Except String (Option IPv4) × S
  ipString : IP → String

def ipProtocolICMPv4 : UInt8 := 1
def ipProtocolTCP : UInt8 := 6
def ipProtocolUDP : UInt8 := 17
def ipProtocolUDPLite : UInt8 := 136

def tcpHeaderMinLen : Nat := 20

/-- A `pktMeta`. The counters leave its flow type and its flag zero. -/
structure FlowMeta extends Flow where
  len : Nat
deriving DecidableEq

structure IPP where
  ip : String
  port : UInt16
deriving DecidableEq

structure TransStatData where
  src : GoMap UInt16 Nat := ∅
  dst : GoMap UInt16 Nat := ∅
  srcpeer : GoMap IPP Nat := ∅
  dstpeer : GoMap IPP Nat := ∅
  flows : GoMap Flow Nat := ∅
  pp : GoMap UInt16 (GoMap IPP Nat) := ∅
  flag : GoMap UInt8 (List FlowMeta) := ∅
  metas : List FlowMeta := []

structure RawProtoData where
  src : GoMap String Nat := ∅
  dst : GoMap String Nat := ∅
  icmpsrc : GoMap String Nat := ∅
  icmpdst : GoMap String Nat := ∅
  tcp : TransStatData := {}
  udp : TransStatData := {}

structure IPStat where
  count : Nat := 0
  fragCount : Nat := 0

structure ICMPStat where
  count : Nat := 0
  type : GoMap UInt8 Nat := ∅

/-- A map of the statistics may be nil, and is then not written. -/
structure TCPStat where
  total : Nat := 0
  port : Option (GoMap UInt16 Nat) := none
  flag : Option (GoMap UInt8 Nat) := some ∅

structure UDPStat where
  total : Nat := 0
  port : Option (GoMap UInt16 Nat) := none
  srcPort : Option (GoMap UInt16 Nat) := some ∅

/-- The counters of one device, without its name and the time of its start. They are natural numbers:
no run raises one 2^63 times. -/
structure ProtoCounter (S : Type) where
  total : Nat := 0
  fic : Bool := false
  ft : Bool := false
  fu : Bool := false
  ful : Bool := false
  defrag : S
  raw : RawProtoData := {}
  ip : IPStat := {}
  icmp : ICMPStat := {}
  tcp : TCPStat := {}
  udp : UDPStat := {}

section Transport

/-- The ports of a segment complete the meta data of its packet. -/
def FlowMeta.withLayer (m : FlowMeta) (l : TransLayer) : FlowMeta :=
  { m with rport := l.srcPort, lport := l.dstPort, len := m.len + (l.contents.length + l.payload.length) }

def FlowMeta.srcPeer (m : FlowMeta) : IPP := ⟨m.rip, m.rport⟩

def FlowMeta.dstPeer (m : FlowMeta) : IPP := ⟨m.lip, m.lport⟩

/-- The histograms that countTCP, countUDP and countUDPLite raise alike. -/
def TransStatData.countFlow (stat : TransStatData) (m : FlowMeta) : TransStatData :=
  { stat with
    src := stat.src.bump m.rport
    dst := stat.dst.bump m.lport
    flows := stat.flows.bump m.toFlow
    srcpeer := stat.srcpeer.bump m.srcPeer
    pp := stat.pp.insert m.lport (((stat.pp.lookup m.lport).getD ∅).bump m.srcPeer)
    dstpeer := stat.dstpeer.bump m.dstPeer }

variable {P S : Type} (g : Gopacket P S)

def countICMP (packet : P) (stat : ICMPStat) : ICMPStat :=
  match g.icmpv4Type packet with
  | none => stat
  | some type => { stat with type := stat.type.bump type }

def countTCP (packet : P) (m : FlowMeta) (stat : TransStatData) (dstStat : Option (GoMap UInt16 Nat))
    (flagStat : Option (GoMap UInt8 Nat)) :
    TransStatData × Option (GoMap UInt16 Nat) × Option (GoMap UInt8 Nat) :=
  match g.trans .tcp packet with
  | none => (stat, dstStat, flagStat)
  | some tcp =>
    if h : tcp.contents.length < tcpHeaderMinLen then (stat, dstStat, flagStat)
    else
      let m := m.withLayer tcp
      let stat := stat.countFlow m
      let dstStat := dstStat.map (·.bump tcp.dstPort)
      match flagStat with
      | none => (stat, dstStat, none)
      | some flags =>
        have hflag : 13 < tcp.contents.length := by simp only [tcpHeaderMinLen] at h; omega
        let flag := tcp.contents[13]
        ({ stat with flag := stat.flag.insert flag ((stat.flag.lookup flag).getD [] ++ [m]) }, dstStat,
          some (flags.bump flag))

/-- The bodies of countUDP and countUDPLite, which read another layer. -/
def countDatagram (type : LayerType) (packet : P) (m : FlowMeta) (stat : TransStatData)
    (dstStat srcStat : Option (GoMap UInt16 Nat)) :
    TransStatData × Option (GoMap UInt16 Nat) × Option (GoMap UInt16 Nat) :=
  match g.trans type packet with
  | none => (stat, dstStat, srcStat)
  | some udp =>
    let m := m.withLayer udp
    let stat := stat.countFlow m
    ({ stat with metas := stat.metas ++ [m] }, dstStat.map (·.bump udp.dstPort),
      srcStat.map fun s => s.insert udp.srcPort (s.count udp.srcPort + udp.payload.length))

def countUDP (packet : P) (m : FlowMeta) (stat : TransStatData) (dstStat srcStat : Option (GoMap UInt16 Nat)) :
    TransStatData × Option (GoMap UInt16 Nat) × Option (GoMap UInt16 Nat) :=
  countDatagram g .udp packet m stat dstStat srcStat

def countUDPLite (packet : P) (m : FlowMeta) (stat : TransStatData)
    (dstStat srcStat : Option (GoMap UInt16 Nat)) :
    TransStatData × Option (GoMap UInt16 Nat) × Option (GoMap UInt16 Nat) :=
  countDatagram g .udpLite packet m stat dstStat srcStat

/-- A segment is counted everywhere or nowhere. -/
theorem countTCP_cases (packet : P) (m : FlowMeta) (stat : TransStatData) (dstStat : Option (GoMap UInt16 Nat))
    (flags : GoMap UInt8 Nat) :
    (∃ (f : UInt8) (m' : FlowMeta), m'.rip = m.rip ∧ countTCP g packet m stat dstStat (some flags) =
      ({ stat.countFlow m' with flag := stat.flag.insert f ((stat.flag.lookup f).getD [] ++ [m']) },
        dstStat.map (·.bump m'.lport), some (flags.bump f))) ∨
      countTCP g packet m stat dstStat (some flags) = (stat, dstStat, some flags) := by
  unfold countTCP
  split
  next => exact Or.inr rfl
  next tcp _ =>
    split
    next => exact Or.inr rfl
    next => exact Or.inl ⟨_, m.withLayer tcp, rfl, rfl⟩

theorem countDatagram_cases (type : LayerType) (packet : P) (m : FlowMeta) (stat : TransStatData)
    (dstStat srcStat : Option (GoMap UInt16 Nat)) :
    (∃ (m' : FlowMeta) (srcStat' : Option (GoMap UInt16 Nat)), m'.rip = m.rip ∧
      countDatagram g type packet m stat dstStat srcStat =
      ({ stat.countFlow m' with metas := stat.metas ++ [m'] }, dstStat.map (·.bump m'.lport), srcStat')) ∨
      countDatagram g type packet m stat dstStat srcStat = (stat, dstStat, srcStat) := by
  unfold countDatagram
  split
  next => exact Or.inr rfl
  next udp _ => exact Or.inl ⟨m.withLayer udp, _, rfl, rfl⟩

@[simp] theorem countICMP_count (packet : P) (stat : ICMPStat) :
    (countICMP g packet stat).count = stat.count := by
  unfold countICMP
  split <;> rfl

end Transport

namespace ProtoCounter

variable {P S : Type} (g : Gopacket P S)

/-- The loop over the selected protocols; "all" leaves it. -/
def select (c : ProtoCounter S) : List String → ProtoCounter S
  | [] => c
  | proto :: protos =>
    if proto = "all" then { c with fic := true, ft := true, fu := true, ful := true }
    else if proto = "icmp" then select { c with fic := true } protos
    else if proto = "tcp" then select { c with ft := true } protos
    else if proto = "udp" then select { c with fu := true } protos
    else if proto = "udplite" then select { c with ful := true } protos
    else select c protos

/-- `NewProtoCounter`. -/
def new (protos : List String) : ProtoCounter S := select { defrag := g.newDefragmenter } protos

/-- A payload of more than 26 bytes is counted as a fragment and decoded again. -/
def reassembled (type : LayerType) (ip : IPv4) (c : ProtoCounter S) (packet : P) : ProtoCounter S × P :=
  if 26 < ip.payload.length then
    ({ c with ip := { c.ip with fragCount := c.ip.fragCount + 1 } }, g.newPacket ip.payload type)
  else (c, packet)

/-- The switch on the protocol of a header. -/
def countProtocol (ip : IPv4) (m : FlowMeta) (c : ProtoCounter S) (packet : P) : ProtoCounter S :=
  if ip.protocol = ipProtocolICMPv4 then
    if c.fic then
      { c with
        raw := { c.raw with icmpsrc := c.raw.icmpsrc.bump m.rip, icmpdst := c.raw.icmpdst.bump m.lip }
        icmp := countICMP g packet { c.icmp with count := c.icmp.count + 1 } }
    else c
  else if ip.protocol = ipProtocolTCP then
    if c.ft then
      let (c, packet) := reassembled g .tcp ip c packet
      let (tcp, port, flag) := countTCP g packet m c.raw.tcp c.tcp.port c.tcp.flag
      { c with raw := { c.raw with tcp := tcp }, tcp := ⟨c.tcp.total + 1, port, flag⟩ }
    else c
  else if ip.protocol = ipProtocolUDP then
    if c.fu then
      let (c, packet) := reassembled g .udp ip c packet
      let (udp, port, srcPort) := countUDP g packet m c.raw.udp c.udp.port c.udp.srcPort
      { c with raw := { c.raw with udp := udp }, udp := ⟨c.udp.total + 1, port, srcPort⟩ }
    else c
  else if ip.protocol = ipProtocolUDPLite then
    if c.ful then
      let (c, packet) := reassembled g .udpLite ip c packet
      let (udp, port, srcPort) := countUDPLite g packet m c.raw.udp c.udp.port c.udp.srcPort
      { c with raw := { c.raw with udp := udp }, udp := ⟨c.udp.total + 1, port, srcPort⟩ }
    else c
  else c

/-- What is counted of every whole IPv4 packet. -/
def countIP (ip : IPv4) (c : ProtoCounter S) : ProtoCounter S :=
  { c with
    ip := { c.ip with count := c.ip.count + 1 }
    raw := { c.raw with
      src := c.raw.src.bump (g.ipString ip.srcIP)
      dst := c.raw.dst.bump (g.ipString ip.dstIP) } }

/-- The meta data of a packet before its ports are known. -/
def ipMeta (ip : IPv4) : FlowMeta :=
  ⟨⟨g.ipString ip.dstIP, 0, g.ipString ip.srcIP, 0⟩, ip.contents.length⟩

/-- A header that waits for the rest of its packet, or is refused, is not even counted in the total. -/
def count (c : ProtoCounter S) (packet : P) : ProtoCounter S :=
  match g.ipv4 packet with
  | none => { c with total := c.total + 1 }
  | some header =>
    match g.defragIPv4 header c.defrag with
    | (.error _, defrag) => { c with defrag := defrag }
    | (.ok none, defrag) => { c with defrag := defrag }
    | (.ok (some ip), defrag) =>
      let c := countProtocol g ip (ipMeta g ip) (countIP g ip { c with defrag := defrag }) packet
      { c with total := c.total + 1 }

/-- A new counter that is given packets one after the other. -/
def run (protos : List String) (packets : List P) : ProtoCounter S := packets.foldl (count g) (new g protos)

/-- What one whole packet can do to the counters. -/
inductive Counts (m : FlowMeta) (c : ProtoCounter S) : ProtoCounter S → Prop
  | ignored : Counts m c c
  | icmp {stat : ICMPStat} (h : stat.count = c.icmp.count + 1) :
    Counts m c { c with
      raw := { c.raw with icmpsrc := c.raw.icmpsrc.bump m.rip, icmpdst := c.raw.icmpdst.bump m.lip }
      icmp := stat }
  | segment {packet : P} {ip : IPStat} {tcp : TransStatData} {port : Option (GoMap UInt16 Nat)}
    {flag : Option (GoMap UInt8 Nat)} (hip : ip.count = c.ip.count)
    (h : countTCP g packet m c.raw.tcp c.tcp.port c.tcp.flag = (tcp, port, flag)) :
    Counts m c { c with ip := ip, raw := { c.raw with tcp := tcp }, tcp := ⟨c.tcp.total + 1, port, flag⟩ }
  | datagram {type : LayerType} {packet : P} {ip : IPStat} {udp : TransStatData}
    {port srcPort : Option (GoMap UInt16 Nat)} (hip : ip.count = c.ip.count)
    (h : countDatagram g type packet m c.raw.udp c.udp.port c.udp.srcPort = (udp, port, srcPort)) :
    Counts m c { c with ip := ip, raw := { c.raw with udp := udp }, udp := ⟨c.udp.total + 1, port, srcPort⟩ }

theorem reassembled_eq (type : LayerType) (ip : IPv4) (c : ProtoCounter S) (packet : P) :
    ∃ stat packet', reassembled g type ip c packet = ({ c with ip := stat }, packet') ∧ stat.count = c.ip.count := by
  unfold reassembled
  split
  next => exact ⟨_, _, rfl, rfl⟩
  next => exact ⟨c.ip, packet, rfl, rfl⟩

theorem countProtocol_counts (ip : IPv4) (m : FlowMeta) (c : ProtoCounter S) (packet : P) :
    Counts g m c (countProtocol g ip m c packet) := by
  have hdatagram : ∀ type, Counts g m c
      (let (c, packet) := reassembled g type ip c packet
      let (udp, port, srcPort) := countDatagram g type packet m c.raw.udp c.udp.port c.udp.srcPort
      { c with raw := { c.raw with udp := udp }, udp := ⟨c.udp.total + 1, port, srcPort⟩ }) := by
    intro type
    obtain ⟨stat, packet', hr, hstat⟩ := reassembled_eq g type ip c packet
    rw [hr]
    exact .datagram hstat rfl
  unfold countProtocol
  split
  next =>
    split
    next => exact .icmp (countICMP_count g packet _)
    next => exact .ignored
  next =>
    split
    next =>
      split
      next =>
        obtain ⟨stat, packet', hr, hstat⟩ := reassembled_eq g .tcp ip c packet
        rw [hr]
        exact .segment hstat rfl
      next => exact .ignored
    next =>
      split
      next =>
        split
        next => exact hdatagram .udp
        next => exact .ignored
      next =>
        split
        next =>
          split
          next => exact hdatagram .udpLite
          next => exact .ignored
        next => exact .ignored

end ProtoCounter

end Dni.Dms
