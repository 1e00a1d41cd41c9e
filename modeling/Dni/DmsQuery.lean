import Dni.BwExact
import Dni.FloodAlarms
import Dni.SlowDetection

namespace Dni.Dms

open Words

abbrev CpuUtil := UInt64

def cpuLow : CpuUtil := 1
def cpuMLow : CpuUtil := 2
def cpuMHigh : CpuUtil := 3
def cpuHigh : CpuUtil := 4

abbrev ConnUtil := UInt64

def tcpconnNormal : ConnUtil := 0
def tcpconnEstablished : ConnUtil := 1
def tcpconnSynRecv : ConnUtil := 4
def tcpconnTimeWait : ConnUtil := 32

def CpuUtil.normal (u : CpuUtil) : Bool := u ≤ cpuMLow
def CpuUtil.high (u : CpuUtil) : Bool := u = cpuHigh
def BwUtil.normal (u : BwUtil) : Bool := u = bwLow
def SnmpUtil.normal (u : SnmpUtil) : Bool := u = protoNormal
def ConnUtil.normal (u : ConnUtil) : Bool := u = tcpconnNormal

def SnmpUtil.icmp (u : SnmpUtil) : Bool := u &&& protoIcmp = protoIcmp
def SnmpUtil.tcpSyn (u : SnmpUtil) : Bool := u &&& protoTcpSyn ≠ 0
def SnmpUtil.tcp (u : SnmpUtil) : Bool := u &&& protoTcp ≠ 0
def SnmpUtil.tcpSynCookies (u : SnmpUtil) : Bool := u &&& protoTcpSyn2 ≠ 0
def SnmpUtil.udp (u : SnmpUtil) : Bool := u &&& protoUdp ≠ 0

structure CPUUtilThreshold (F : Type) where
  low : F
  moderate : F
  high : F

/-- A number that compares with no bound is low. -/
def calcCPUUtil {F : Type} [LE F] [DecidableLE F] [LT F] [DecidableLT F] (c : F) (th : CPUUtilThreshold F) : CpuUtil :=
  if c ≤ th.low then cpuLow
  else if c ≤ th.moderate then cpuMLow
  else if c ≤ th.high then cpuMHigh
  else if th.high < c then cpuHigh
  else cpuLow

def calcTCPConn (connStats : GoMap String UInt64) (tcpconnTh : TcpConnUtilThreshold) : ConnUtil :=
  let status := tcpconnNormal
  let status := if UInt64.ofInt tcpconnTh.semiConn ≤ counter connStats "TCP_SYN_RECV" then status ||| tcpconnSynRecv
    else status
  let status := if UInt64.ofInt tcpconnTh.fullConn ≤ counter connStats "TCP_ESTABLISHED" then
    status ||| tcpconnEstablished else status
  if UInt64.ofInt tcpconnTh.fullConn ≤ counter connStats "TCP_TIME_WAIT" then status ||| tcpconnTimeWait else status

structure AssessorData (F : Type) where
  cpu : F
  bw : GoMap String (GoMap String UInt64)
  tcpConn : GoMap String UInt64
  snmp : GoMap String UInt64
  nicSpeed : GoMap String UInt64

structure AssessorInd where
  cpu : CpuUtil
  snmp : SnmpUtil
  tcpConn : ConnUtil
  bw : BwUtil
  perNicBW : GoMap String (GoMap String Bool)

structure DmsAssessOptions (F : Type) where
  cpu : CPUUtilThreshold F
  bw : BwUtilThreshold
  tcpConn : TcpConnUtilThreshold
  pps : ProtoThreshold F
  frequency : Int

/-- `DmsAssessTask.Process`. -/
def dmsAssess {F : Type} [FloatArith F] [LE F] [DecidableLE F] [LT F] [DecidableLT F]
    (ord : GoMap.Order String (GoMap String UInt64)) (options : DmsAssessOptions F) (assessorData : AssessorData F) :
    Option AssessorInd :=
  (calcBWUtil ord assessorData.bw assessorData.nicSpeed options.bw).map fun (bwStatus, bwStatusMap) =>
    { cpu := calcCPUUtil assessorData.cpu options.cpu
      snmp := calcSnmpUtil assessorData.snmp (UInt64.ofInt options.frequency) options.pps ∅
      tcpConn := calcTCPConn assessorData.tcpConn options.tcpConn
      bw := bwStatus
      perNicBW := bwStatusMap }

def measureProto : UInt8 := 2
def measureTcpconn : UInt8 := 3

def connTcpTimeWait : UInt8 := 2

def pIcmp : UInt8 := 1
def pTcp : UInt8 := 2
def pUdp : UInt8 := 4
def pUdplite : UInt8 := 8
def pNonipv4 : UInt8 := 16
def pAll : UInt8 := pIcmp ||| pTcp ||| pUdp

structure Query where
  conn : GoMap Measurement Unit := ∅
  dp : GoMap String Measurement := ∅

def Query.setDp (q : Query) (dev : String) (m : UInt8) : Query :=
  { q with dp := q.dp.insert dev ⟨measureProto, ((q.dp.lookup dev).map Measurement.l2).getD 0 ||| m⟩ }

def Query.isNil (q : Query) : Bool := q.dp.keys.length = 0 && q.conn.keys.length = 0

structure Intelligence where
  highSoft : Bool := false
  highBps : GoMap String Bool := ∅
  highPps : GoMap String Bool := ∅
  synCookieEnabled : Bool := false

/-- A counter without a mark reads as false. -/
def marked (marks : GoMap String Bool) (name : String) : Bool := (marks.lookup name).getD false

def crossbarConn : GoMap ConnUtil UInt8 :=
  ((∅ : GoMap ConnUtil UInt8).insert tcpconnTimeWait connTcpTimeWait).insert tcpconnEstablished connTcpEstablished

/-- The protocols that are asked for: ICMP stands for all of them. -/
def askedProtos (proto : SnmpUtil) : UInt8 :=
  let m := 0
  let m := if proto.icmp then m ||| pAll else m
  let m := if proto.udp then m ||| pUdp else m
  if proto.tcp then m ||| pTcp else m

/-- One round of the loop over the devices. -/
def arbitrateNic (m : UInt8) (s : Query × Intelligence) (e : String × GoMap String Bool) : Query × Intelligence :=
  let s := if marked e.2 nicRxBytes && m ≠ 0 then
    (s.1.setDp e.1 m, { s.2 with highBps := s.2.highBps.insert e.1 true }) else s
  if marked e.2 nicRxPackets && m ≠ 0 then
    (s.1.setDp e.1 m, { s.2 with highPps := s.2.highPps.insert e.1 true }) else s

/-- One round of the loop over the states of connections. -/
def arbitrateConn (conn : ConnUtil) (q : Query) (e : ConnUtil × UInt8) : Query :=
  if conn &&& e.1 ≠ 0 then { q with conn := q.conn.insert ⟨measureTcpconn, e.2⟩ () } else q

/-- The orders in which the arbiter ranges over its maps. -/
structure ArbiterOrders where
  nics : GoMap.Order String (GoMap String Bool)
  conns : GoMap.Order ConnUtil UInt8

/-- The query and the intelligence that the marks and the states of connections give. -/
def arbitrate (ord : ArbiterOrders) (input : AssessorInd) : Query × Intelligence :=
  let intelli : Intelligence :=
    { highSoft := input.cpu.high
      synCookieEnabled := input.snmp.tcp && input.snmp.tcpSyn && input.snmp.tcpSynCookies }
  let (q, intelli) := (ord.nics.run input.perNicBW).foldl (arbitrateNic (askedProtos input.snmp)) ({}, intelli)
  let q := if !input.tcpConn.normal then (ord.conns.run crossbarConn).foldl (arbitrateConn input.tcpConn) q else q
  (q, intelli)

def getQuery (ord : ArbiterOrders) (input : AssessorInd) : Option Query × Option Intelligence :=
  if input.cpu.normal && input.bw.normal && input.snmp.normal && input.tcpConn.normal then (none, none)
  else
    let (q, intelli) := arbitrate ord input
    if q.isNil then (none, some intelli) else (some q, some intelli)

section Query

/-- What a query asks of a device: nothing where the arbiter gives no query. -/
def asksOf (query : Option Query) (dev : String) : Option Measurement := query.bind fun q => q.dp.lookup dev

/-- A mark on the bytes or on the packets that come in. -/
def Flagged (perNicBW : GoMap String (GoMap String Bool)) (dev : String) : Prop :=
  ∃ stat, perNicBW.lookup dev = some stat ∧ (marked stat nicRxBytes = true ∨ marked stat nicRxPackets = true)

theorem lookup_setDp (q : Query) (dev dev' : String) (m : UInt8) : (q.setDp dev m).dp.lookup dev' =
    if dev' = dev then some ⟨measureProto, ((q.dp.lookup dev).map Measurement.l2).getD 0 ||| m⟩ else q.dp.lookup dev' :=
  GoMap.lookup_insert_if _ _ _ _

/-- The queries that hold nothing but one measurement of each device. -/
def Uniform (m : UInt8) (q : Query) : Prop := ∀ dev meas, q.dp.lookup dev = some meas → meas = ⟨measureProto, m⟩

theorem Uniform.setDp {m : UInt8} {q : Query} (h : Uniform m q) (dev : String) :
    Uniform m (q.setDp dev m) ∧ ∀ dev', dev' ∈ (q.setDp dev m).dp ↔ dev' = dev ∨ dev' ∈ q.dp := by
  have hor : ((q.dp.lookup dev).map Measurement.l2).getD 0 ||| m = m := by
    cases hl : q.dp.lookup dev with
    | none => simp
    | some meas => simp [h dev meas hl]
  refine ⟨?_, fun dev' => AList.mem_insert _⟩
  intro dev' meas hmeas
  rw [lookup_setDp, hor] at hmeas
  split at hmeas
  next => exact (Option.some.inj hmeas).symm
  next => exact h dev' meas hmeas

/-- A round adds its device to the query, where that is marked. -/
theorem arbitrateNic_spec {m : UInt8} (hm : m ≠ 0) {s : Query × Intelligence} (h : Uniform m s.1)
    (e : String × GoMap String Bool) :
    Uniform m (arbitrateNic m s e).1 ∧ (arbitrateNic m s e).1.conn = s.1.conn ∧
      (∀ dev, dev ∈ (arbitrateNic m s e).1.dp ↔
        dev ∈ s.1.dp ∨ dev = e.1 ∧ (marked e.2 nicRxBytes = true ∨ marked e.2 nicRxPackets = true)) := by
  have hbool : ∀ b : Bool, (b && decide (m ≠ 0)) = b := fun b => by simp [hm]
  unfold arbitrateNic
  simp only [hbool]
  cases hbytes : marked e.2 nicRxBytes with
  | false =>
    cases hpackets : marked e.2 nicRxPackets with
    | false => simp [h]
    | true =>
      obtain ⟨hu, hmem⟩ := h.setDp e.1
      refine ⟨hu, rfl, fun dev => (hmem dev).trans ?_⟩
      simp [or_comm]
  | true =>
    obtain ⟨hu, hmem⟩ := h.setDp e.1
    cases hpackets : marked e.2 nicRxPackets with
    | false =>
      refine ⟨hu, rfl, fun dev => (hmem dev).trans ?_⟩
      simp [or_comm]
    | true =>
      obtain ⟨hu', hmem'⟩ := hu.setDp e.1
      refine ⟨hu', rfl, fun dev => (hmem' dev).trans ?_⟩
      rw [hmem]
      tauto

theorem foldl_arbitrateNic {m : UInt8} (hm : m ≠ 0) (es : List (String × GoMap String Bool)) {s : Query × Intelligence}
    (h : Uniform m s.1) : Uniform m (es.foldl (arbitrateNic m) s).1 ∧ (es.foldl (arbitrateNic m) s).1.conn = s.1.conn ∧
      ∀ dev, dev ∈ (es.foldl (arbitrateNic m) s).1.dp ↔ dev ∈ s.1.dp ∨ ∃ e ∈ es, dev = e.1 ∧
        (marked e.2 nicRxBytes = true ∨ marked e.2 nicRxPackets = true) := by
  induction es generalizing s with
  | nil => simp [h]
  | cons e es ih =>
    obtain ⟨hu, hconn, hmem⟩ := arbitrateNic_spec hm h e
    obtain ⟨hu', hconn', hmem'⟩ := ih hu
    refine ⟨hu', hconn'.trans hconn, fun dev => ?_⟩
    rw [List.foldl_cons, hmem', hmem, List.exists_mem_cons_iff, or_assoc]

/-- Where no protocol is asked for, the devices are passed over. -/
theorem foldl_arbitrateNic_zero (es : List (String × GoMap String Bool)) (s : Query × Intelligence) :
    es.foldl (arbitrateNic 0) s = s := by
  induction es with
  | nil => rfl
  | cons e es ih =>
    have hstep : arbitrateNic 0 s e = s := by simp [arbitrateNic]
    rw [List.foldl_cons, hstep, ih]

theorem arbitrateConn_dp (conn : ConnUtil) (q : Query) (e : ConnUtil × UInt8) : (arbitrateConn conn q e).dp = q.dp := by
  unfold arbitrateConn
  split <;> rfl

theorem foldl_arbitrateConn_dp (conn : ConnUtil) (es : List (ConnUtil × UInt8)) (q : Query) :
    (es.foldl (arbitrateConn conn) q).dp = q.dp := by
  induction es generalizing q with
  | nil => rfl
  | cons e es ih => rw [List.foldl_cons, ih, arbitrateConn_dp]

theorem mem_foldl_arbitrateConn (conn : ConnUtil) (es : List (ConnUtil × UInt8)) (q : Query) (m : Measurement) :
    m ∈ (es.foldl (arbitrateConn conn) q).conn ↔
      m ∈ q.conn ∨ ∃ e ∈ es, Has conn e.1 ∧ m = ⟨measureTcpconn, e.2⟩ := by
  induction es generalizing q with
  | nil => simp
  | cons e es ih =>
    have hstep : m ∈ (arbitrateConn conn q e).conn ↔ m ∈ q.conn ∨ Has conn e.1 ∧ m = ⟨measureTcpconn, e.2⟩ := by
      unfold arbitrateConn Has
      split
      next h => rw [AList.mem_insert, or_comm]; simp [h]
      next h => simp [h]
    rw [List.foldl_cons, ih, hstep, List.exists_mem_cons_iff, or_assoc]

theorem askedProtos_normal {proto : SnmpUtil} (h : proto.normal = true) : askedProtos proto = 0 := by
  rw [decide_eq_true_eq.mp h]
  decide

section Arbitrate

variable (ord : ArbiterOrders) (input : AssessorInd)

/-- Each marked device is asked about, and about the same protocols. -/
theorem lookup_arbitrate (dev : String) (meas : Measurement) : (arbitrate ord input).1.dp.lookup dev = some meas ↔
    Flagged input.perNicBW dev ∧ askedProtos input.snmp ≠ 0 ∧ meas = ⟨measureProto, askedProtos input.snmp⟩ := by
  have hdp : ∀ q : Query, (if !input.tcpConn.normal then
      (ord.conns.run crossbarConn).foldl (arbitrateConn input.tcpConn) q else q).dp = q.dp := by
    intro q
    split
    next => exact foldl_arbitrateConn_dp _ _ _
    next => rfl
  rw [arbitrate, hdp]
  by_cases hm : askedProtos input.snmp = 0
  · rw [hm, foldl_arbitrateNic_zero]
    simp
  · have hempty : Uniform (askedProtos input.snmp) {} := fun dev meas h => by cases h
    have hstart : dev ∉ ({} : Query).dp := AList.notMem_empty _
    obtain ⟨hu, _, hmem⟩ := foldl_arbitrateNic hm (ord.nics.run input.perNicBW)
      (s := ({}, { highSoft := input.cpu.high
                   synCookieEnabled := input.snmp.tcp && input.snmp.tcpSyn && input.snmp.tcpSynCookies })) hempty
    have hflagged := hmem dev
    rw [GoMap.mem_iff_lookup] at hflagged
    simp only [hstart, false_or, Prod.exists, GoMap.Order.mem_run] at hflagged
    apply Iff.intro
    · intro h
      obtain ⟨dev', stat, hstat, rfl, hmarks⟩ := hflagged.mp ⟨meas, h⟩
      exact ⟨⟨stat, hstat, hmarks⟩, hm, hu _ _ h⟩
    · rintro ⟨⟨stat, hstat, hmarks⟩, _, hmeas⟩
      obtain ⟨meas', hmeas'⟩ := hflagged.mpr ⟨dev, stat, hstat, rfl, hmarks⟩
      rw [hmeas', hu _ _ hmeas', hmeas]

theorem mem_crossbarConn {u : ConnUtil} {l2 : UInt8} : crossbarConn.lookup u = some l2 ↔
    u = tcpconnEstablished ∧ l2 = connTcpEstablished ∨ u = tcpconnTimeWait ∧ l2 = connTcpTimeWait := by
  have hne : tcpconnTimeWait ≠ tcpconnEstablished := by decide
  rw [crossbarConn, GoMap.lookup_insert_if, GoMap.lookup_insert_if]
  split
  next h => simp [h, hne.symm, eq_comm]
  next h =>
    split
    next h' => simp [h', hne, eq_comm]
    next h' => simp [h, h']

/-- The states of connections that are asked for are those above a threshold. -/
theorem mem_arbitrate_conn (m : Measurement) : m ∈ (arbitrate ord input).1.conn ↔
    Has input.tcpConn tcpconnEstablished ∧ m = ⟨measureTcpconn, connTcpEstablished⟩ ∨
      Has input.tcpConn tcpconnTimeWait ∧ m = ⟨measureTcpconn, connTcpTimeWait⟩ := by
  have hnics : ∀ i : Intelligence,
      ((ord.nics.run input.perNicBW).foldl (arbitrateNic (askedProtos input.snmp)) ({}, i)).1.conn = ∅ := by
    intro i
    by_cases hm : askedProtos input.snmp = 0
    · rw [hm, foldl_arbitrateNic_zero]
    · have hempty : Uniform (askedProtos input.snmp) {} := fun dev meas h => by cases h
      exact (foldl_arbitrateNic hm _ (s := ({}, i)) hempty).2.1
  rw [arbitrate]
  dsimp only
  split
  next =>
    rw [mem_foldl_arbitrateConn, hnics]
    simp only [AList.notMem_empty, false_or, Prod.exists, GoMap.Order.mem_run, mem_crossbarConn]
    apply Iff.intro
    · rintro ⟨u, l2, ⟨rfl, rfl⟩ | ⟨rfl, rfl⟩, hhas, hm⟩
      · exact Or.inl ⟨hhas, hm⟩
      · exact Or.inr ⟨hhas, hm⟩
    · rintro (⟨hhas, hm⟩ | ⟨hhas, hm⟩)
      · exact ⟨_, _, Or.inl ⟨rfl, rfl⟩, hhas, hm⟩
      · exact ⟨_, _, Or.inr ⟨rfl, rfl⟩, hhas, hm⟩
  next hnormal =>
    rw [hnics]
    simp only [ConnUtil.normal, Bool.not_eq_true', decide_eq_false_iff_not, not_not] at hnormal
    simp [hnormal, tcpconnNormal]

/-- A query that is not given asks for nothing. -/
theorem getQuery_spec : (∀ dev, asksOf (getQuery ord input).1 dev = (arbitrate ord input).1.dp.lookup dev) ∧
    ∀ m, (∃ q, (getQuery ord input).1 = some q ∧ m ∈ q.conn) ↔ m ∈ (arbitrate ord input).1.conn := by
  have hempty : (∀ dev, dev ∉ (arbitrate ord input).1.dp) → (∀ m, m ∉ (arbitrate ord input).1.conn) →
      (getQuery ord input).1 = none →
      (∀ dev, asksOf (getQuery ord input).1 dev = (arbitrate ord input).1.dp.lookup dev) ∧
        ∀ m, (∃ q, (getQuery ord input).1 = some q ∧ m ∈ q.conn) ↔ m ∈ (arbitrate ord input).1.conn := by
    intro hdp hconn hnone
    rw [hnone]
    refine ⟨fun dev => (AList.lookup_eq_none.mpr (hdp dev)).symm, fun m => iff_of_false ?_ (hconn m)⟩
    rintro ⟨_, heq, _⟩
    cases heq
  by_cases hnormal : (input.cpu.normal && input.bw.normal && input.snmp.normal && input.tcpConn.normal) = true
  · have hparts := hnormal
    simp only [Bool.and_eq_true] at hparts
    obtain ⟨⟨_, hsnmp⟩, hconn⟩ := hparts
    refine hempty ?_ ?_ (by rw [getQuery, if_pos hnormal])
    · intro dev hdev
      obtain ⟨meas, hmeas⟩ := GoMap.mem_iff_lookup.mp hdev
      exact ((lookup_arbitrate ord input dev meas).mp hmeas).2.1 (askedProtos_normal hsnmp)
    · intro m hm
      rw [mem_arbitrate_conn, decide_eq_true_eq.mp hconn] at hm
      simp [tcpconnNormal] at hm
  · have hget : (getQuery ord input).1 =
        if (arbitrate ord input).1.isNil then none else some (arbitrate ord input).1 := by
      rw [getQuery, if_neg hnormal]
      dsimp only
      split <;> rfl
    by_cases hnil : (arbitrate ord input).1.isNil = true
    · have hlengths := hnil
      simp only [Query.isNil, Bool.and_eq_true, decide_eq_true_eq, List.length_eq_zero_iff] at hlengths
      refine hempty ?_ ?_ (by rw [hget, if_pos hnil])
      · intro dev hdev
        rw [AList.mem_keys, hlengths.1] at hdev
        cases hdev
      · intro m hm
        rw [AList.mem_keys, hlengths.2] at hm
        cases hm
    · rw [hget, if_neg hnil]
      refine ⟨fun dev => rfl, fun m => ?_⟩
      simp

end Arbitrate

end Query

section Assessed

variable {F : Type} [FloatArith F] (options : DmsAssessOptions F) (data : AssessorData F)

/-- What comes in on a device reaches a threshold, as the words are compared. -/
def RxHigh (th : BwUtilThreshold) (stat : GoMap String UInt64) (speed : UInt64) : Prop :=
  (∃ u, bpsUtil (counter stat nicRxBytes) speed = some u ∧ th.bps.toUInt64 ≤ u) ∨
    th.pps.toUInt64 * 1000 ≤ counter stat nicRxPackets

/-- A device on which too much comes in. -/
def Suspected (dev : String) : Prop :=
  ∃ stat, data.bw.lookup dev = some stat ∧ RxHigh options.bw stat (counter data.nicSpeed dev)

/-- The least number of packets that is too many for a protocol. -/
def DmsAssessOptions.threshold (proto : String) : UInt64 :=
  packetThreshold (UInt64.ofInt options.frequency) options.pps proto

/-- The counters of the kernel that are compared with the threshold of a protocol. -/
def AssessorData.readings : Proto → List UInt64
  | .icmp => [counter data.snmp "IcmpInMsgs"]
  | .tcp => [counter data.snmp "TcpExtTCPReqQFullDrop", counter data.snmp "TcpExtTCPReqQFullDoCookies",
      counter data.snmp "TcpOutRsts", counter data.snmp "TcpInSegs" - (counter data.snmp "TcpExtTCPReqQFullDrop" +
        counter data.snmp "TcpExtTCPReqQFullDoCookies" + counter data.snmp "TcpOutRsts")]
  | .udp => [counter data.snmp "UdpRcvbufErrors", counter data.snmp "UdpNoPorts"]

def Proto.name : Proto → String
  | .icmp => protoStrIcmp
  | .tcp => protoStrTcp
  | .udp => protoStrUdp

/-- Too many packets of the protocol, or too many that failed the reverse path filter. -/
def Abnormal (p : Proto) : Prop :=
  reversePath data.snmp (UInt64.ofInt options.frequency) = true ∨
    ∃ n ∈ data.readings p, options.threshold p.name ≤ n

/-- The protocols that are counted: all of them where ICMP is abnormal. -/
def Counted (p : Proto) : Prop := Abnormal options data .icmp ∨ Abnormal options data p

/-- The snapshot of the kernel's counters as it is judged. -/
def AssessorData.snmpUtil : SnmpUtil := calcSnmpUtil data.snmp (UInt64.ofInt options.frequency) options.pps ∅

variable {options data}

theorem marked_iff {marks : GoMap String Bool} {name : String} :
    marked marks name = true ↔ marks.lookup name = some true := by
  unfold marked
  cases marks.lookup name <;> simp

theorem calcDevice_flagged {speed : UInt64} (hs : speed ≠ 0) (stat : GoMap String UInt64) (th : BwUtilThreshold) :
    ∃ d, calcDevice stat speed th = some d ∧
      (marked d.marks nicRxBytes = true ∨ marked d.marks nicRxPackets = true ↔ RxHigh th stat speed) := by
  obtain ⟨rx, hrx, _⟩ := bpsUtil_eq (counter stat nicRxBytes) hs
  obtain ⟨tx, htx, _⟩ := bpsUtil_eq (counter stat nicTxBytes) hs
  refine ⟨_, by rw [calcDevice, hrx, htx]; rfl, ?_⟩
  rw [marked_iff, marked_iff, RxHigh, hrx]
  simp [nicRxBytes, nicRxPackets, nicTxBytes, nicTxPackets]
  exact or_congr_right decide_eq_true_iff

variable (options) in
/-- With a speed for every device the assessment comes to its end. -/
theorem dmsAssess_spec [LE F] [DecidableLE F] [LT F] [DecidableLT F] (ord : GoMap.Order String (GoMap String UInt64))
    (hspeed : ∀ dev ∈ data.bw, counter data.nicSpeed dev ≠ 0) :
    ∃ ind, dmsAssess ord options data = some ind ∧ ind.snmp = data.snmpUtil options ∧
      ind.tcpConn = calcTCPConn data.tcpConn options.tcpConn ∧
      ∀ dev, Flagged ind.perNicBW dev ↔ Suspected options data dev := by
  have hex : ∀ dev, ∃ d, ∀ stat, data.bw.lookup dev = some stat →
      calcDevice stat (counter data.nicSpeed dev) options.bw = some d ∧
        (marked d.marks nicRxBytes = true ∨ marked d.marks nicRxPackets = true ↔
          RxHigh options.bw stat (counter data.nicSpeed dev)) := by
    intro dev
    cases hl : data.bw.lookup dev with
    | none => exact ⟨{}, fun stat hstat => by cases hstat⟩
    | some stat =>
      have hs := hspeed dev (GoMap.mem_iff_lookup.mpr ⟨stat, hl⟩)
      obtain ⟨d, hd⟩ := calcDevice_flagged hs stat options.bw
      refine ⟨d, fun stat' hstat' => ?_⟩
      cases hstat'
      exact hd
  choose device hdevice using hex
  obtain ⟨statusMap, hrun, hlookup⟩ := calcBWUtil_eq (fun dev stat hstat => (hdevice dev stat hstat).1) ord
  refine ⟨_, by rw [dmsAssess, hrun]; rfl, rfl, rfl, fun dev => ?_⟩
  simp only [Flagged, Suspected, hlookup]
  cases hl : data.bw.lookup dev with
  | none => simp
  | some stat => simp [(hdevice dev stat hl).2]

section Bits

variable {freq : UInt64} {pps : ProtoThreshold F} {counters : GoMap String UInt64} {f : UInt64}

theorem has_checkIcmp : Has (checkIcmp counters freq pps) f ↔
    packetThreshold freq pps "icmp" ≤ counter counters "IcmpInMsgs" ∧ Has protoIcmp f := by
  unfold checkIcmp
  dsimp only
  rw [has_raise]
  simp [protoNormal]

theorem has_checkTcp_tcp : Has (checkTcp counters freq pps) protoTcp ↔
    packetThreshold freq pps "tcp" ≤ counter counters "TcpExtTCPReqQFullDrop" ∨
      packetThreshold freq pps "tcp" ≤ counter counters "TcpExtTCPReqQFullDoCookies" ∨
      packetThreshold freq pps "tcp" ≤ counter counters "TcpOutRsts" ∨
      packetThreshold freq pps "tcp" ≤ counter counters "TcpInSegs" - (counter counters "TcpExtTCPReqQFullDrop" +
        counter counters "TcpExtTCPReqQFullDoCookies" + counter counters "TcpOutRsts") := by
  have hbits : Has protoTcpSyn1 protoTcp ∧ Has protoTcpSyn2 protoTcp ∧ Has protoTcpOutrst protoTcp ∧
      Has protoTcpOthers protoTcp := by decide
  unfold checkTcp
  dsimp only
  rw [has_raise, has_raise, has_raise, has_raise]
  simp [protoNormal, hbits, or_assoc]

theorem has_checkUdp : Has (checkUdp counters freq pps) f ↔
    packetThreshold freq pps "udp" ≤ counter counters "UdpRcvbufErrors" ∧ Has protoUdpOpened f ∨
      packetThreshold freq pps "udp" ≤ counter counters "UdpNoPorts" ∧ Has protoUdpClosed f := by
  unfold checkUdp
  dsimp only
  rw [has_raise, has_raise]
  simp [protoNormal]

theorem not_has_checkTcp (h : f = protoIcmp ∨ f = protoUdp) : ¬ Has (checkTcp counters freq pps) f := by
  have hbits : ¬ Has protoTcpSyn1 f ∧ ¬ Has protoTcpSyn2 f ∧ ¬ Has protoTcpOutrst f ∧ ¬ Has protoTcpOthers f := by
    rcases h with rfl | rfl <;> decide
  unfold checkTcp
  dsimp only
  rw [has_raise, has_raise, has_raise, has_raise]
  simp [protoNormal, hbits]

/-- Of no protocol the check is left out. -/
theorem has_snmpUtil : Has (calcSnmpUtil counters freq pps ∅) f ↔
    if reversePath counters freq then Has protoIcmp f ∨ Has protoTcp f ∨ Has protoUdp f
    else Has (checkIcmp counters freq pps) f ∨ Has (checkTcp counters freq pps) f ∨
      Has (checkUdp counters freq pps) f := by
  have hall : ∀ proto, prohibited ∅ proto = false := fun proto => rfl
  unfold calcSnmpUtil
  simp only [hall, Bool.not_false, if_true, has_or, protoNormal, not_has_zero, false_or, or_assoc]
  split <;> rfl

end Bits

theorem abnormal_icmp : (data.snmpUtil options).icmp = true ↔ Abnormal options data .icmp := by
  have hbit : ∀ u : UInt64, u &&& protoIcmp = protoIcmp ↔ Has u protoIcmp := by
    intro u
    have hand : (u &&& protoIcmp).toNat = (u.toNat.testBit 1).toNat * 2 ^ 1 := by
      rw [UInt64.toNat_and]
      exact Nat.and_two_pow u.toNat 1
    have htwo : protoIcmp.toNat = 2 := rfl
    rw [Has, Ne, ← UInt64.toNat_inj, ← UInt64.toNat_inj, hand, htwo]
    cases u.toNat.testBit 1 <;> simp
  have hbits : Has protoIcmp protoIcmp ∧ ¬ Has protoTcp protoIcmp ∧ ¬ Has protoUdp protoIcmp ∧
      ¬ Has protoUdpOpened protoIcmp ∧ ¬ Has protoUdpClosed protoIcmp := by decide
  rw [SnmpUtil.icmp, decide_eq_true_eq, hbit, AssessorData.snmpUtil, has_snmpUtil, Abnormal]
  split
  next hrp => simp [hrp, hbits]
  next hrp =>
    rw [has_checkIcmp, has_checkUdp]
    simp [hrp, hbits, not_has_checkTcp, AssessorData.readings, DmsAssessOptions.threshold, Proto.name, protoStrIcmp]

theorem abnormal_tcp : (data.snmpUtil options).tcp = true ↔ Abnormal options data .tcp := by
  have hbits : Has protoTcp protoTcp ∧ ¬ Has protoIcmp protoTcp ∧ ¬ Has protoUdp protoTcp ∧
      ¬ Has protoUdpOpened protoTcp ∧ ¬ Has protoUdpClosed protoTcp := by decide
  have hhas : (data.snmpUtil options).tcp = true ↔ Has (data.snmpUtil options) protoTcp := decide_eq_true_iff
  rw [hhas, AssessorData.snmpUtil, has_snmpUtil, Abnormal]
  split
  next hrp => simp [hrp, hbits]
  next hrp =>
    rw [has_checkIcmp, has_checkTcp_tcp, has_checkUdp]
    simp [hrp, hbits, AssessorData.readings, DmsAssessOptions.threshold, Proto.name, protoStrTcp]

theorem abnormal_udp : (data.snmpUtil options).udp = true ↔ Abnormal options data .udp := by
  have hbits : Has protoUdp protoUdp ∧ ¬ Has protoIcmp protoUdp ∧ ¬ Has protoTcp protoUdp ∧
      Has protoUdpOpened protoUdp ∧ Has protoUdpClosed protoUdp := by decide
  have hhas : (data.snmpUtil options).udp = true ↔ Has (data.snmpUtil options) protoUdp := decide_eq_true_iff
  rw [hhas, AssessorData.snmpUtil, has_snmpUtil, Abnormal]
  split
  next hrp => simp [hrp, hbits]
  next hrp =>
    rw [has_checkIcmp, has_checkUdp]
    simp [hrp, hbits, not_has_checkTcp, AssessorData.readings, DmsAssessOptions.threshold, Proto.name, protoStrUdp]

theorem askedProtos_ne_zero {proto : SnmpUtil} :
    askedProtos proto ≠ 0 ↔ proto.icmp = true ∨ proto.tcp = true ∨ proto.udp = true := by
  unfold askedProtos
  cases proto.icmp <;> cases proto.udp <;> cases proto.tcp <;> decide

/-- A protocol is asked for where one is abnormal. -/
theorem askedProtos_iff : (∃ p, Abnormal options data p) ↔ askedProtos (data.snmpUtil options) ≠ 0 := by
  rw [askedProtos_ne_zero, abnormal_icmp, abnormal_tcp, abnormal_udp]
  apply Iff.intro
  · rintro ⟨p, hp⟩
    cases p with
    | icmp => exact Or.inl hp
    | tcp => exact Or.inr (Or.inl hp)
    | udp => exact Or.inr (Or.inr hp)
  · rintro (h | h | h)
    · exact ⟨_, h⟩
    · exact ⟨_, h⟩
    · exact ⟨_, h⟩

theorem has_calcTCPConn_established (stats : GoMap String UInt64) (th : TcpConnUtilThreshold) :
    Has (calcTCPConn stats th) tcpconnEstablished ↔ UInt64.ofInt th.fullConn ≤ counter stats "TCP_ESTABLISHED" := by
  have hbits : ¬ Has tcpconnSynRecv tcpconnEstablished ∧ Has tcpconnEstablished tcpconnEstablished ∧
      ¬ Has tcpconnTimeWait tcpconnEstablished := by decide
  unfold calcTCPConn
  dsimp only
  rw [has_raise, has_raise, has_raise]
  simp [tcpconnNormal, hbits]

/-- A suspected device is asked about if a protocol is abnormal, whatever the orders of the maps; a state of connections
is asked for above its threshold. -/
theorem arbitrates [LE F] [DecidableLE F] [LT F] [DecidableLT F] (ord : GoMap.Order String (GoMap String UInt64))
    (orders : ArbiterOrders) (hspeed : ∀ dev ∈ data.bw, counter data.nicSpeed dev ≠ 0) :
    ∃ ind, dmsAssess ord options data = some ind ∧
      (∀ dev meas, asksOf (getQuery orders ind).1 dev = some meas ↔ Suspected options data dev ∧
        (∃ p, Abnormal options data p) ∧ meas = ⟨measureProto, askedProtos (data.snmpUtil options)⟩) ∧
      ((∃ q, (getQuery orders ind).1 = some q ∧ (⟨measureTcpconn, connTcpEstablished⟩ : Measurement) ∈ q.conn) ↔
        UInt64.ofInt options.tcpConn.fullConn ≤ counter data.tcpConn "TCP_ESTABLISHED") ∧
      ∀ q m, (getQuery orders ind).1 = some q → m ∈ q.conn →
        m = ⟨measureTcpconn, connTcpEstablished⟩ ∨ m = ⟨measureTcpconn, connTcpTimeWait⟩ := by
  obtain ⟨ind, hind, hsnmp, hconn, hflagged⟩ := dmsAssess_spec options ord hspeed
  obtain ⟨hasks, hstates⟩ := getQuery_spec orders ind
  refine ⟨ind, hind, fun dev meas => ?_, ?_, fun q m hq hm => ?_⟩
  · rw [hasks, lookup_arbitrate, hflagged, askedProtos_iff, hsnmp]
  · rw [hstates, mem_arbitrate_conn, hconn, has_calcTCPConn_established]
    simp [connTcpEstablished, connTcpTimeWait]
  · have hin := (mem_arbitrate_conn orders ind m).mp ((hstates m).mp ⟨q, hq, hm⟩)
    exact hin.imp And.right And.right

end Assessed

end Dni.Dms
