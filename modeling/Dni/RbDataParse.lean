import Dni.Lib.Access

namespace Dni.Cpp

open Access

/-- What is kept of a packet. The ports are those of TCP and UDP. -/
structure PacketFeatures where
  sip : Nat
  dip : Nat
  ports : Option (Nat × Nat)
  length : Nat
  protocol : Nat

variable (mem : Nat → UInt8)

def ethHlen : Nat := 14

def ethP8021Q : Nat := 0x8100

def ethP8021AD : Nat := 0x88A8

/-- At most two VLAN tags are skipped; the tag count is what is left of them. -/
def skipVlan (ethHeader : Nat) : Nat → Nat → Nat → Access (Nat × Nat)
  | 0, hProto, l3Off => pure (hProto, l3Off)
  | tags + 1, hProto, l3Off =>
    if hProto ≠ ethP8021Q ∧ hProto ≠ ethP8021AD then pure (hProto, l3Off)
    else do
      let l3Off := l3Off + 4
      let hProto ← netWord mem (ethHeader + l3Off - 2) 2
      skipVlan ethHeader tags hProto l3Off

/-- The protocol and the offset of the next header, if the frame is Ethernet II. -/
def parseEthtypeVlan (ethHeader : Nat) : Access (Option (Nat × Nat)) := do
  let hProto ← netWord mem (ethHeader + 12) 2
  if hProto < 0x600 then pure none
  else
    let found ← skipVlan mem ethHeader 2 hProto ethHlen
    pure (some found)

def parsePorts (ipHeader : Nat) : Access (Nat × Nat) := do
  let versionHl ← netWord mem ipHeader 1
  let l4 := ipHeader + versionHl % 16 * 4
  let source ← netWord mem l4 2
  let dest ← netWord mem (l4 + 2) 2
  pure (source, dest)

/-- The features of an IPv4 packet of TCP, UDP or ICMP; nothing here knows how long it is. -/
def parseSndFeatures (body : Nat) : Access (Option PacketFeatures) := do
  match ← parseEthtypeVlan mem body with
  | none => pure none
  | some (hProto, l3Off) =>
    if hProto = 0x0800 then
      let ipHeader := body + l3Off
      let sip ← netWord mem (ipHeader + 12) 4
      let dip ← netWord mem (ipHeader + 16) 4
      let proto ← netWord mem (ipHeader + 9) 1
      if proto = 6 ∨ proto = 17 then
        let ports ← parsePorts mem ipHeader
        let length ← netWord mem (ipHeader + 2) 2
        pure (some ⟨sip, dip, some ports, length, proto⟩)
      else if proto = 1 then
        let length ← netWord mem (ipHeader + 2) 2
        pure (some ⟨sip, dip, none, length, proto⟩)
      else pure none
    else pure none

/-- A packet the loop came by: where its body starts, the length in front of it, what was kept. -/
structure Visit where
  body : Nat
  pktLen : Nat
  features : Option PacketFeatures

/-- The body of the loop: the length of the next record is read after every packet. -/
def packetLoop : Nat → Nat → Nat → Access (List Visit)
  | 0, _, _ => pure []
  | cnt + 1, data, pktLen => do
    let body := data + 2
    let features ← parseSndFeatures mem body
    let data := body + pktLen
    let next ← word mem data 2
    let rest ← packetLoop cnt data next
    pure (⟨body, pktLen, features⟩ :: rest)

def parsePackets (pktsdata cnt : Nat) : Access (List Visit) := do
  let pktLen ← word mem pktsdata 2
  packetLoop mem cnt pktsdata pktLen

structure RbHeader where
  nicName : List UInt8
  ts : Nat
  pktsStats : List Nat
  offset : Nat

def parseStats : Nat → Nat → Access (List Nat)
  | 0, _ => pure []
  | n + 1, slot => do
    let value ← word mem slot 4
    let rest ← parseStats n (slot + 4)
    pure (value :: rest)

def parseHeader : Access RbHeader := do
  let slot := 0
  let nicNameLen ← word mem slot 2
  let slot := slot + 2
  let nicName ← bytes mem slot nicNameLen
  let slot := slot + nicNameLen
  let ts ← word mem slot 8
  let slot := slot + 8
  let pktsStats ← parseStats mem 9 slot
  let slot := slot + 4 * 9
  pure ⟨nicName, ts, pktsStats, slot⟩

/-- The data put out, and none of it where the count of packets is zero. The kept features of the
visits are the packets put out. -/
def process : Access (Option (RbHeader × List Visit)) := do
  let header ← parseHeader mem
  let countTotal := header.pktsStats.headD 0
  if countTotal = 0 then pure none
  else
    let pktsCnt := if countTotal > 10000 then 10000 else countTotal
    let visits ← parsePackets mem header.offset pktsCnt
    pure (some (header, visits))

end Dni.Cpp
