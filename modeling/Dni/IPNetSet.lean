import Dni.Cidr
import Dni.Lib.GoMap

namespace Dni

open SortSearch

/-- Self-defined IPNet, net.IPNet is not comparable. -/
structure IPNet where
  ipAddr : UInt32
  mask : UInt32
deriving DecidableEq

def uint32Max : UInt32 := 0xFFFFFFFF

def ipNetToRange (n : IPNet) : Range IP :=
  ⟨uiton (n.ipAddr &&& n.mask), uiton (n.ipAddr ||| ~~~n.mask)⟩

def Range.contains (r : Range IP) (a : UInt32) : Bool :=
  Bytes.compare r.start (uiton a) ≤ 0 && Bytes.compare (uiton a) r.stop ≤ 0

/-- `net.IP.Equal`: an IPv4 address equals its IPv4-mapped 16-byte form. -/
def ipEqual (a b : IP) : Bool :=
  if a.length = b.length then a == b
  else if a.length = 4 ∧ b.length = 16 then b == v4InV6Prefix ++ a
  else if a.length = 16 ∧ b.length = 4 then a == v4InV6Prefix ++ b
  else false

/-- `IPNet{Ntoui(in.IP), Ntoui(in.Mask)}`. -/
def NetIPNet.toIPNet (n : NetIPNet) : Option IPNet := do
  let ip ← ntoui n.ip
  let mask ← ntoui n.mask
  return ⟨ip, mask⟩

structure IPNetSet where
  inets : GoMap IPNet Unit
  single : GoMap IPNet Unit
  ranges : List (Range IP)

def newIPNetSet : IPNetSet := ⟨∅, ∅, []⟩

namespace IPNetSet

def size (i : IPNetSet) : Nat := i.inets.entries.length

def empty (i : IPNetSet) : Bool := i.size == 0

/-- Index of the first range that does not start before `nr`. -/
def startIndex (i : IPNetSet) (nr : Range IP) : Nat :=
  search i.ranges.length fun idx => i.ranges[idx]?.any fun r => 0 ≤ Bytes.compare r.start nr.start

/-- The first return value indicates the insert position. The second return value will be -2 if
unrelated, -1 if n has parent in i, 0 if equal, 1 if n has children in i. -/
def searchNet (i : IPNetSet) (n : IPNet) : Nat × Int :=
  if i.ranges.length = 0 then (0, -2)
  else
    let nr := ipNetToRange n
    let idx := i.startIndex nr
    let inPrevious := i.ranges[idx - 1]?.any fun r => Bytes.compare nr.stop r.stop ≤ 0
    match i.ranges[idx]? with
    | none => if inPrevious then (idx - 1, -1) else (idx, -2)
    | some r =>
      if ipEqual r.start nr.start then (idx, Bytes.compare nr.stop r.stop)
      else if idx ≠ 0 && inPrevious then (idx - 1, -1)
      else if 0 ≤ Bytes.compare nr.stop r.stop then (idx, 1)
      else (idx, -2)

/-- The set under Add, the nets removed so far, and whether anything changed. -/
structure Adding where
  set : IPNetSet
  del : List IPNet
  ok : Bool

def Adding.dropSingle (r : Range IP) (st : Adding) (n : IPNet) : Adding :=
  if !r.contains n.ipAddr then st
  else ⟨{ st.set with inets := st.set.inets.erase n, single := st.set.single.erase n },
    st.del ++ [n], true⟩

/-- The loop of Add over the ranges from `idx` on: it forgets the nets of every range that ends
inside `r` and returns how many ranges that were. -/
def Adding.swallow (r : Range IP) (st : Adding) : List (Range IP) → Option (Adding × Nat)
  | [] => some (st, 0)
  | x :: rest =>
    if Bytes.compare x.stop r.stop ≤ 0 then do
      let nets ← x.toIPNets
      let ns ← nets.mapM NetIPNet.toIPNet
      let (st', m) ← Adding.swallow r
        ⟨{ st.set with inets := ns.foldl (fun m n => m.erase n) st.set.inets }, st.del ++ ns, st.ok⟩ rest
      return (st', m + 1)
    else some (st, 0)

/-- Add inserts an IPNet; `ord` is the order in which it ranges over the single addresses. The
result is the set, the deleted nets and whether an insertion occurred; a panic is `none`. -/
def add (ord : GoMap.Order IPNet Unit) (i : IPNetSet) (ipnet : IPNet) :
    Option (IPNetSet × List IPNet × Bool) :=
  if i.empty then
    if ipnet.mask ≠ uint32Max then
      some (⟨i.inets.insert ipnet (), i.single, [ipNetToRange ipnet]⟩, [], true)
    else some (⟨i.inets.insert ipnet (), i.single.insert ipnet (), i.ranges⟩, [], true)
  else if ipnet ∈ i.inets then some (i, [], false)
  else
    let r := ipNetToRange ipnet
    let st := (ord.keys i.single).foldl (Adding.dropSingle r) ⟨i, [], false⟩
    let (idx, c) := st.set.searchNet ipnet
    if c = -2 then
      let inets := st.set.inets.insert ipnet ()
      if ipnet.mask = uint32Max then
        some (⟨inets, st.set.single.insert ipnet (), st.set.ranges⟩, st.del, true)
      else if idx = st.set.ranges.length then
        some (⟨inets, st.set.single, st.set.ranges ++ [r]⟩, st.del, true)
      else
        let ranges := st.set.ranges.take (idx + 1) ++ st.set.ranges.drop idx
        some (⟨inets, st.set.single, ranges.set idx r⟩, st.del, true)
    else if c = 1 then do
      let st := { st with set := { st.set with inets := st.set.inets.insert ipnet () } }
      let (st, m) ← st.swallow r (st.set.ranges.drop idx)
      let ranges := st.set.ranges.set idx r
      return (⟨st.set.inets, st.set.single, ranges.take (idx + 1) ++ ranges.drop (idx + m)⟩, st.del, true)
    else some (st.set, st.del, st.ok)

/-- Delete returns at the first net that is not a member; a slice index past the end panics. -/
def delete (i : IPNetSet) : List IPNet → Option IPNetSet
  | [] => some i
  | n :: inets =>
    if n ∉ i.inets then some i
    else if n.mask = uint32Max then
      delete ⟨i.inets.erase n, i.single.erase n, i.ranges⟩ inets
    else
      let idx := i.startIndex (ipNetToRange n)
      if idx < i.ranges.length then
        delete ⟨i.inets.erase n, i.single, i.ranges.take idx ++ i.ranges.drop (idx + 1)⟩ inets
      else none

def clearAll (_ : IPNetSet) : IPNetSet := ⟨∅, ∅, []⟩

/-- Has means exact match. -/
def has (i : IPNetSet) (n : IPNet) : Bool := n ∈ i.inets

/-- Contains means exact or CIDR-based match. -/
def contains (i : IPNetSet) (n : IPNet) : Bool :=
  if n ∈ i.inets then true
  else
    let c := (i.searchNet n).2
    c = 0 || c = -1

end IPNetSet

/-- One call on a set. Every Add ranges over its map in an order of its own. -/
inductive SetOp
  | add (ord : GoMap.Order IPNet Unit) (n : IPNet)
  | delete (inets : List IPNet)
  | clearAll

def SetOp.apply (i : IPNetSet) : SetOp → Option IPNetSet
  | .add ord n => (i.add ord n).map Prod.fst
  | .delete inets => i.delete inets
  | .clearAll => some i.clearAll

/-- The set that a sequence of calls leads to. -/
def runOps (ops : List SetOp) (i : IPNetSet) : Option IPNetSet := ops.foldlM SetOp.apply i

/-- A contiguous mask of any length and no host bit set. -/
def IPNet.Canonical (n : IPNet) : Prop :=
  (∃ k ≤ 32, n.mask.toNat = 2 ^ 32 - 2 ^ k) ∧ n.ipAddr &&& n.mask = n.ipAddr

def IPNet.Covers (n : IPNet) (a : UInt32) : Prop := a &&& n.mask = n.ipAddr &&& n.mask

/-- Every address of `m` is one of `n`. -/
def IPNet.Within (m n : IPNet) : Prop := ∀ a, m.Covers a → n.Covers a

def SetOp.Canonical : SetOp → Prop
  | .add _ n => n.Canonical
  | .delete inets => ∀ n ∈ inets, n.Canonical
  | .clearAll => True

end Dni
