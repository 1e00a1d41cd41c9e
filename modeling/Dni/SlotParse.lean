import Dni.Lib.Access
import Dni.RingBuffer

namespace Dni

open Access

/-- What the parser takes from a slot. The address is its four bytes, the speed ratio its value in
thousandths and the load the bits of its float; a packet is the offset and length of its slice. -/
structure SlotData where
  nicName : List UInt8
  ipBytes : List UInt8
  nicSpeed : Nat
  ratio : Nat
  cpu : Nat
  bw : List (String × Nat)
  tcpConn : List (String × Nat)
  snmp : List (String × Nat)
  packets : List (Nat × Nat)

def bwKeys : List String := ["rx_bytes", "rx_packets", "tx_bytes", "tx_packets"]

def tcpConnKeys : List String := ["TCP_SYN_RECV", "TCP_ESTABLISHED", "TCP_TIME_WAIT"]

def snmpKeys : List String :=
  ["TcpExtIPReversePathFilter", "IcmpInMsgs", "TcpOutRsts", "TcpInSegs", "TcpExtTCPReqQFullDrop",
    "TcpExtTCPReqQFullDoCookies", "UdpRcvbufErrors", "UdpNoPorts"]

variable (S : Nat) (mem : Nat → UInt8)

/-- A slice of the slot panics past the end; taking it reads nothing. -/
def slotSlice (offset n : Nat) : Access (Nat × Nat) :=
  if offset + n ≤ S then pure (offset, n) else abort

/-- The part of the name between the first two hashes, which have to be one at least. -/
def afterHash (hostNicName : List UInt8) : Access (List UInt8) :=
  match (hostNicName.splitOn 35)[1]? with
  | some name => pure name
  | none => abort

def slotValues : Nat → List String → Access (List (String × Nat))
  | _, [] => pure []
  | offset, key :: keys => do
    let value ← word mem offset 8
    let rest ← slotValues (offset + 8) keys
    pure ((key, value) :: rest)

def slotPackets : Nat → Nat → Access (List (Nat × Nat))
  | 0, _ => pure []
  | count + 1, offset => do
    let pLength ← word mem offset 2
    if pLength = 0 then pure []
    else
      let pData ← slotSlice S (offset + 2) pLength
      let rest ← slotPackets count (offset + 2 + pLength)
      pure (pData :: rest)

/-- The words are read through raw pointers; the timestamp is skipped. -/
def ringBufferDataParse : Access SlotData := do
  let offset := 0
  let nameLength ← word mem offset 2
  let offset := offset + 2
  let _ ← slotSlice S offset nameLength
  let hostNicName ← bytes mem offset nameLength
  let nicName ← afterHash hostNicName
  let offset := offset + nameLength
  let _ ← slotSlice S offset 4
  let ipBytes ← bytes mem offset 4
  let offset := offset + 4
  let nicSpeed ← word mem offset 8
  let offset := offset + 8
  let offset := offset + 8
  let ratio ← word mem offset 8
  let offset := offset + 8
  let countTotal ← word mem offset 4
  let offset := offset + 4
  let cpu ← word mem offset 8
  let offset := offset + 8
  let bw ← slotValues mem offset bwKeys
  let offset := offset + 8 * 4
  let tcpConn ← slotValues mem offset tcpConnKeys
  let offset := offset + 8 * 3
  let snmp ← slotValues mem offset snmpKeys
  let offset := offset + 8 * 8
  let packets ← slotPackets S mem countTotal offset
  pure { nicName, ipBytes, nicSpeed, ratio, cpu, bw, tcpConn, snmp, packets }

/-- No panic, no read past the slot, and the packets are slices of it that follow each other. -/
def ParseSafe : Prop :=
  ∃ data, (ringBufferDataParse S mem).value = some data ∧ (ringBufferDataParse S mem).Inside S ∧
    (∀ p ∈ data.packets, p.1 + p.2 ≤ S) ∧
    data.packets.Pairwise fun p q => p.1 + p.2 ≤ q.1

/-- Nonempty packets of these lengths lie one after the other from an offset on, each behind its
length. -/
def Records (offset : Nat) : List Nat → Prop
  | [] => True
  | n :: lens => 0 < n ∧ little mem offset 2 = n ∧ Records (offset + 2 + n) lens

def recordsEnd (offset : Nat) (lens : List Nat) : Nat := offset + (lens.map (2 + ·)).sum

/-- The lengths of the length, the name, the address, the speed, the timestamp and the ratio. -/
def countOffset : Nat := 2 + little mem 0 2 + 4 + 8 + 8 + 8

def headerCount : Nat := little mem (countOffset mem) 4

def headerEnd : Nat := countOffset mem + 4 + 8 + 8 * 4 + 8 * 3 + 8 * 8

/-- The name has a hash, and behind the header the slot holds whole packets, as many as its count
says or up to a zero length. -/
structure SlotFits : Prop where
  hash : 35 ∈ (List.range' 2 (little mem 0 2)).map mem
  records : ∃ lens, Records mem (headerEnd mem) lens ∧ recordsEnd (headerEnd mem) lens ≤ S ∧
    lens.length ≤ headerCount mem ∧
    (lens.length < headerCount mem →
      recordsEnd (headerEnd mem) lens + 2 ≤ S ∧ little mem (recordsEnd (headerEnd mem) lens) 2 = 0)

end Dni
