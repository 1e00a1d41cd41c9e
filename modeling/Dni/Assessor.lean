import Dni.FloodRules
import Dni.Lib.Words

namespace Dni.Dms

/-- A counter that a map does not hold reads as zero. -/
def counter (data : GoMap String UInt64) (name : String) : UInt64 := (data.lookup name).getD 0

section Snmp

abbrev SnmpUtil := UInt64

def protoNormal : SnmpUtil := 0
def protoIcmp : SnmpUtil := 2
def protoTcpSyn1 : SnmpUtil := 4
def protoTcpSyn2 : SnmpUtil := 8
def protoTcpOutrst : SnmpUtil := 16
def protoTcpOthers : SnmpUtil := 32
def protoUdpOpened : SnmpUtil := 64
def protoUdpClosed : SnmpUtil := 128

def protoTcpSyn : SnmpUtil := protoTcpSyn1 ||| protoTcpSyn2
def protoTcp : SnmpUtil := protoTcpSyn ||| protoTcpOutrst ||| protoTcpOthers
def protoUdp : SnmpUtil := protoUdpOpened ||| protoUdpClosed

def thReversePath : UInt64 := 100000

variable {F : Type} [FloatArith F] (data : GoMap String UInt64) (freq : UInt64) (pps : ProtoThreshold F)

/-- The first line of every check: the conversion and the product both wrap. -/
def packetThreshold (proto : String) : UInt64 := UInt64.ofInt (pps.getPPSThreshold proto true) * freq

def checkIcmp : SnmpUtil :=
  let th := packetThreshold freq pps "icmp"
  let brief := protoNormal
  if th ≤ counter data "IcmpInMsgs" then brief ||| protoIcmp else brief

def checkTcp : SnmpUtil :=
  let th := packetThreshold freq pps "tcp"
  let brief := protoNormal
  let brief := if th ≤ counter data "TcpExtTCPReqQFullDrop" then brief ||| protoTcpSyn1 else brief
  let brief := if th ≤ counter data "TcpExtTCPReqQFullDoCookies" then brief ||| protoTcpSyn2 else brief
  let brief := if th ≤ counter data "TcpOutRsts" then brief ||| protoTcpOutrst else brief
  if th ≤ counter data "TcpInSegs" - (counter data "TcpExtTCPReqQFullDrop" +
      counter data "TcpExtTCPReqQFullDoCookies" + counter data "TcpOutRsts") then brief ||| protoTcpOthers
  else brief

def checkUdp : SnmpUtil :=
  let th := packetThreshold freq pps "udp"
  let brief := protoNormal
  let brief := if th ≤ counter data "UdpRcvbufErrors" then brief ||| protoUdpOpened else brief
  if th ≤ counter data "UdpNoPorts" then brief ||| protoUdpClosed else brief

/-- The test on the packets that failed the reverse path filter. -/
def reversePath : Bool := thReversePath * freq < counter data "TcpExtIPReversePathFilter"

def prohibited (protoProhibit : GoMap String Bool) (proto : String) : Bool := (protoProhibit.lookup proto).getD false

def calcSnmpUtil (protoProhibit : GoMap String Bool) : SnmpUtil :=
  let rp := reversePath data freq
  let brief := protoNormal
  let brief := if !prohibited protoProhibit "icmp" then
    brief ||| (if rp then protoIcmp else checkIcmp data freq pps) else brief
  let brief := if !prohibited protoProhibit "tcp" then
    brief ||| (if rp then protoTcp else checkTcp data freq pps) else brief
  if !prohibited protoProhibit "udp" then
    brief ||| (if rp then protoUdp else checkUdp data freq pps) else brief

end Snmp

section Bandwidth

abbrev BwUtil := UInt64

def bwLow : BwUtil := 0
def bwRxBpsHigh : BwUtil := 1
def bwRxPpsHigh : BwUtil := 2
def bwTxBpsHigh : BwUtil := 4
def bwTxPpsHigh : BwUtil := 8

def nicRxBytes : String := "rx_bytes"
def nicRxPackets : String := "rx_packets"
def nicTxBytes : String := "tx_bytes"
def nicTxPackets : String := "tx_packets"

def mb : UInt64 := (1 : UInt64) <<< 20

structure BwUtilThreshold where
  bps : Int64
  pps : Int64

/-- What is said of one device: its flags, and the counters that are too high. -/
structure DeviceStatus where
  status : BwUtil := bwLow
  marks : GoMap String Bool := ∅

/-- The body of the four tests. -/
def DeviceStatus.mark (d : DeviceStatus) (high : Bool) (flag : BwUtil) (name : String) : DeviceStatus :=
  if high then ⟨d.status ||| flag, d.marks.insert name true⟩ else d

/-- A division by zero panics. -/
def bpsUtil (bytes speed : UInt64) : Option UInt64 :=
  if speed = 0 then none else some (100 * (bytes * 8 / mb) / speed)

/-- One round of the loop over the devices. -/
def calcDevice (data : GoMap String UInt64) (speed : UInt64) (th : BwUtilThreshold) : Option DeviceStatus := do
  let thbps := th.bps.toUInt64
  let thpps := th.pps.toUInt64 * 1000
  let d : DeviceStatus := {}
  let rx ← bpsUtil (counter data nicRxBytes) speed
  let d := d.mark (thbps ≤ rx) bwRxBpsHigh nicRxBytes
  let d := d.mark (thpps ≤ counter data nicRxPackets) bwRxPpsHigh nicRxPackets
  let tx ← bpsUtil (counter data nicTxBytes) speed
  let d := d.mark (thbps ≤ tx) bwTxBpsHigh nicTxBytes
  return d.mark (thpps ≤ counter data nicTxPackets) bwTxPpsHigh nicTxPackets

def calcBWUtil (ord : GoMap.Order String (GoMap String UInt64)) (bw : GoMap String (GoMap String UInt64))
    (speed : GoMap String UInt64) (th : BwUtilThreshold) : Option (BwUtil × GoMap String (GoMap String Bool)) :=
  (ord.run bw).foldlM (fun (shapeResult, statusMap) (dev, data) =>
    (calcDevice data (counter speed dev) th).map fun d =>
      (shapeResult ||| d.status, statusMap.insert dev d.marks)) (bwLow, ∅)

end Bandwidth

end Dni.Dms
